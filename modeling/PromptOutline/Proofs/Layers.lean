import PromptOutline.Proofs.SettingKeys

/-!
# What layers give a key

A file gives values to the keys that its tables define, an override to its own key. What settings
hold for a key after a layer was put over them is what the layer gives it, or what they held before
if it gives it nothing. So the last override of a key decides, then the last file that defines it,
then what is built in.
-/

namespace PromptOutline

variable {w : Workspace}

namespace SettingKey

/-- What the tables of fields hold under a key. -/
def among (k : SettingKey) (fields : List (String × Setting)) : List Setting :=
  Setting.within k.group k.name fields

/-- The value that fields define for a key. -/
def defined? (k : SettingKey) (fields : List (String × Setting)) : Option k.Value :=
  (k.among fields).head?.bind k.value?

end SettingKey

/-- Fields that define any of the keys: no name is a path, the groups are tables, and a key is
defined at most once, with a value of its type. There may be other fields. -/
structure WellTyped (fields : List (String × Setting)) : Prop where
  names : ∀ field ∈ fields, (KeyPath.parse? field.1).getD [.child field.1] = [.child field.1]
  groups : ∀ k : SettingKey, ∀ v ∈ Setting.under k.group fields, v.isTable = true
  values : ∀ k : SettingKey, ∀ v ∈ k.among fields, (k.value? v).isSome
  once : ∀ k : SettingKey, (k.among fields).length ≤ 1

instance (fields : List (String × Setting)) : Decidable (WellTyped fields) :=
  decidable_of_iff
    ((∀ field ∈ fields, (KeyPath.parse? field.1).getD [.child field.1] = [.child field.1]) ∧
      ∀ k ∈ SettingKey.all, (∀ v ∈ Setting.under k.group fields, v.isTable = true) ∧
        (∀ v ∈ k.among fields, (k.value? v).isSome) ∧ (k.among fields).length ≤ 1) <| by
    rw [SettingKey.forall_mem_all]
    exact ⟨fun ⟨hnames, hkeys⟩ =>
        ⟨hnames, fun k => (hkeys k).1, fun k => (hkeys k).2.1, fun k => (hkeys k).2.2⟩,
      fun h => ⟨h.names, fun k => ⟨h.groups k, h.values k, h.once k⟩⟩⟩

/-- The fields that a settings file is written with. A file that is not there has none. -/
def fieldsAt? (w : Workspace) (path : String) : Option (List (String × Setting)) :=
  match Settings.findFile? w path with
  | none => some []
  | some whole => do
    let bytes ← (w.read whole).toOption
    let text := if bytes.take 3 = [0xEF, 0xBB, 0xBF] then bytes.drop 3 else bytes
    let fields ← Toml.parse? (Text.Utf8.lossy text)
    some (Setting.ofTomlFields (some (Settings.shownPath w whole)) fields)

namespace Layer

/-- Whether a layer is an override. -/
def isOverride : Layer → Bool
  | file _ _ => false
  | override _ _ => true

/-- A layer that can be put over others: a file that is there or need not be, with well-typed
fields, or an override of a key with a value of its type. -/
def Sound (w : Workspace) : Layer → Prop
  | file path required =>
    (required = true → (Settings.findFile? w path).isSome) ∧
      ∃ fields ∈ fieldsAt? w path, WellTyped fields
  | override key value => ∃ k ∈ SettingKey.all, key = k.path ∧ (k.value? value).isSome

instance (w : Workspace) : (l : Layer) → Decidable (l.Sound w)
  | file _ _ => inferInstanceAs (Decidable (_ ∧ _))
  | override _ _ => inferInstanceAs (Decidable (∃ _ ∈ SettingKey.all, _))

/-- What a layer gives a key. -/
def gives (w : Workspace) (k : SettingKey) : Layer → Option k.Value
  | file path _ => (fieldsAt? w path).bind k.defined?
  | override key value => if key = k.path then k.value? value else none

/-- What a key is given last. -/
def lastGiven (w : Workspace) (k : SettingKey) (layers : List Layer) : Option k.Value :=
  (layers.filterMap (gives w k)).getLast?

/-- Without layers a key is given nothing. -/
@[simp] theorem lastGiven_nil (k : SettingKey) : lastGiven w k [] = none := rfl

/-- What a key is given last comes from the later layers, or else from the first one. -/
theorem lastGiven_cons (k : SettingKey) (l : Layer) (layers : List Layer) :
    lastGiven w k (l :: layers) = (lastGiven w k layers).or (l.gives w k) := by
  unfold lastGiven
  rw [List.filterMap_cons]
  cases l.gives w k with
  | none => exact (Option.or_none).symm
  | some x => rw [List.getLast?_cons]; cases (layers.filterMap (gives w k)).getLast? <;> rfl

/-- What a key is given last comes from the layers above, or else from those below. -/
theorem lastGiven_append (k : SettingKey) (below above : List Layer) :
    lastGiven w k (below ++ above) = (lastGiven w k above).or (lastGiven w k below) := by
  rw [lastGiven, List.filterMap_append, List.getLast?_append]
  rfl

/-- An override gives nothing to other keys than its own. -/
theorem gives_override (k : SettingKey) (v : Setting) (k' : SettingKey) :
    (override k.path v).gives w k' = if k = k' then k'.value? v else none := by
  rw [gives]
  by_cases hk : k = k'
  · rw [if_pos hk, if_pos (congrArg SettingKey.path hk)]
  · rw [if_neg hk, if_neg fun h => hk (SettingKey.path_injective h)]

end Layer

/-- The value of a key in layers: what the last override of the key gives it, or else the last file
that defines it, or else what is built in. -/
def SettingKey.layered (w : Workspace) (layers : List Layer) (k : SettingKey) : k.Value :=
  ((Layer.lastGiven w k (layers.filter (·.isOverride))).or
    (Layer.lastGiven w k (layers.filter (!·.isOverride)))).getD k.builtIn

namespace Settings

open Layer (lastGiven)

/-- A file changes what is held for the keys that it defines. -/
theorem held?_layer {fields : List (String × Setting)} (h : WellTyped fields) (s : Setting)
    (k : SettingKey) : k.held? (s.layer fields) = (k.defined? fields).or (k.held? s) := by
  have hplain : ∀ v ∈ k.among fields, v.isTable = false := fun v hv =>
    SettingKey.isTable_of_value? (h.values k v hv)
  unfold SettingKey.held?
  rw [Setting.layer_eq_putAll s fields h.names, Setting.member?_putAll fields s (h.groups k) hplain,
    ← SettingKey.among, SettingKey.defined?]
  -- A key is defined at most once, so its first value among the fields is its last.
  have honce := h.once k
  have hvalues := h.values k
  generalize k.among fields = found at honce hvalues ⊢
  match found with
  | [] => rfl
  | [v] =>
    obtain ⟨x, hx⟩ := Option.isSome_iff_exists.mp (hvalues v List.mem_cons_self)
    simp [hx]
  | _ :: _ :: _ => simp at honce

/-- An override changes what is held for its own key. -/
theorem held?_assign {k : SettingKey} {v : Setting} (hv : (k.value? v).isSome) (s : Setting)
    (k' : SettingKey) :
    k'.held? (Setting.assign [.child k.group, .child k.name] v s) =
      ((Layer.override k.path v).gives w k').or (k'.held? s) := by
  unfold SettingKey.held?
  rw [Setting.member?_assign s (SettingKey.isTable_of_value? hv), k.lowercase_group,
    k.lowercase_name, Layer.gives_override]
  by_cases hk : k = k'
  · subst hk
    obtain ⟨x, hx⟩ := Option.isSome_iff_exists.mp hv
    simp [hx]
  · have hplace : ¬(k'.group = k.group ∧ k'.name = k.name) := fun h =>
      hk (SettingKey.eq_of_group_name h.1.symm h.2.symm)
    rw [if_neg hplace, if_neg hk, Option.none_or]

private theorem held?_builtIn (k : SettingKey) : k.held? builtIn = some k.builtIn := by
  cases k <;> rfl

/-- A sound file can be read, and has the fields that it is written with. -/
theorem readFile_of_sound {path : String} {required : Bool}
    (h : (Layer.file path required).Sound w) :
    ∃ fields, readFile w path required = .ok fields ∧ fieldsAt? w path = some fields ∧
      WellTyped fields := by
  obtain ⟨hfound, fields, hfields, htyped⟩ := h
  refine ⟨fields, ?_, hfields, htyped⟩
  unfold fieldsAt? at hfields
  unfold readFile
  cases hpath : findFile? w path with
  | none =>
    rw [hpath] at hfound hfields
    cases hfields
    cases required with
    | false => rfl
    | true => cases hfound rfl
  | some whole =>
    rw [hpath] at hfields
    cases hbytes : w.read whole with
    | error fault => simp [hbytes, Except.toOption] at hfields
    | ok bytes =>
      have hmark : [0xEF, 0xBB, 0xBF].isPrefixOf bytes = true ↔
          bytes.take 3 = [0xEF, 0xBB, 0xBF] := by
        rw [List.isPrefixOf_iff_prefix, List.prefix_iff_eq_take, eq_comm]
        rfl
      simp only [hbytes, Except.toOption, bind, Option.bind_some, ← hmark] at hfields
      obtain ⟨parsed, hparsed, hset⟩ := Option.bind_eq_some_iff.mp hfields
      simp only [Option.map_some, hbytes, hparsed, Option.some.inj hset]

/-- The files among layers are put over settings one after the other. -/
theorem held?_layerFiles (layers : List Layer) (s : Setting) (h : ∀ l ∈ layers, l.Sound w) :
    ∃ s', layerFiles w layers s = .ok s' ∧
      ∀ k : SettingKey, k.held? s' =
        (lastGiven w k (layers.filter (!·.isOverride))).or (k.held? s) := by
  induction layers generalizing s with
  | nil => exact ⟨s, rfl, fun k => rfl⟩
  | cons l layers ih =>
    rw [List.forall_mem_cons] at h
    cases l with
    | override key value => exact ih s h.2
    | file path required =>
      obtain ⟨fields, hread, hfields, htyped⟩ := readFile_of_sound h.1
      obtain ⟨s', hs', hheld⟩ := ih (s.layer fields) h.2
      refine ⟨s', by simp only [layerFiles, hread, bind, Except.bind, hs'], fun k => ?_⟩
      have hgives : (Layer.file path required).gives w k = k.defined? fields := by
        rw [Layer.gives, hfields, Option.bind_some]
      rw [hheld k, held?_layer htyped, List.filter_cons_of_pos rfl, Layer.lastGiven_cons, hgives,
        Option.or_assoc]

/-- The overrides among layers are assigned one after the other. -/
theorem held?_overrides (layers : List Layer) (h : ∀ l ∈ layers, l.Sound w) :
    ∃ paths, overrides layers = .ok paths ∧ ∀ (s : Setting) (k : SettingKey),
      k.held? (paths.foldl (fun s (path, value) => Setting.assign path value s) s) =
        (lastGiven w k (layers.filter (·.isOverride))).or (k.held? s) := by
  induction layers with
  | nil => exact ⟨[], rfl, fun s k => rfl⟩
  | cons l layers ih =>
    rw [List.forall_mem_cons] at h
    obtain ⟨paths, hpaths, hheld⟩ := ih h.2
    cases l with
    | file path required => exact ⟨paths, hpaths, hheld⟩
    | override key value =>
      obtain ⟨k, -, rfl, hvalue⟩ := h.1
      refine ⟨([.child k.group, .child k.name], value) :: paths, ?_, fun s k' => ?_⟩
      · simp only [overrides, k.parse?_path, hpaths, bind, Except.bind]
      · rw [List.foldl_cons, hheld, held?_assign (w := w) hvalue, List.filter_cons_of_pos rfl,
          Layer.lastGiven_cons, Option.or_assoc]

/-- Sound layers can be built, and every key has the value that it is given last. -/
theorem build_layered (layers : List Layer) (h : ∀ l ∈ layers, l.Sound w) :
    ∃ t, build w layers = .ok t ∧ ∀ k : SettingKey, k.ofSettings t = k.layered w layers := by
  obtain ⟨paths, hpaths, hoverrides⟩ := held?_overrides layers h
  obtain ⟨files, hfiles, hheld⟩ := held?_layerFiles layers builtIn h
  obtain ⟨t, ht, hvalues⟩ := ofSetting_of_held (x := fun k => k.layered w layers)
    (s := paths.foldl (fun s (path, value) => Setting.assign path value s) files) (fun k => by
      rw [hoverrides, hheld, held?_builtIn, ← Option.or_assoc, Option.or_some]
      rfl)
  exact ⟨t, by simp only [build, hpaths, hfiles, bind, Except.bind, ht], hvalues⟩

/-- Only the overrides among layers give paths. -/
theorem overrides_filter (layers : List Layer) :
    overrides (layers.filter (·.isOverride)) = overrides layers := by
  induction layers with
  | nil => rfl
  | cons l layers ih =>
    cases l with
    | file path required => exact ih
    | override key value =>
      rw [List.filter_cons_of_pos rfl, overrides, overrides, ih]

/-- Only the files among layers are put over settings before overrides are. -/
theorem layerFiles_filter (layers : List Layer) (s : Setting) :
    layerFiles w (layers.filter (!·.isOverride)) s = layerFiles w layers s := by
  induction layers generalizing s with
  | nil => rfl
  | cons l layers ih =>
    cases l with
    | override key value => exact ih s
    | file path required =>
      rw [List.filter_cons_of_pos rfl, layerFiles, layerFiles]
      exact congrArg _ (funext fun fields => ih _)

/-- It does not matter where overrides stand among files. -/
theorem build_congr {layers layers' : List Layer}
    (hoverrides : layers.filter (·.isOverride) = layers'.filter (·.isOverride))
    (hfiles : layers.filter (!·.isOverride) = layers'.filter (!·.isOverride)) :
    build w layers = build w layers' := by
  unfold build
  rw [← overrides_filter layers, ← overrides_filter layers', hoverrides,
    ← layerFiles_filter layers, ← layerFiles_filter layers', hfiles]

end Settings

end PromptOutline
