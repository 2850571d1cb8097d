import PromptOutline.Proofs.KeyedLists
import PromptOutline.Settings.Value

/-!
# What joined settings hold

A setting is read key by key. What stands under a key after fields were put over a setting is what
the last of these fields put there, and what was there before if none of them did; for a key of a
group, the fields of all tables that were put over the group count.
-/

namespace PromptOutline.Setting

/-- Whether a setting is a table. -/
def isTable : Setting → Bool
  | table _ _ => true
  | _ => false

/-- The values of all fields whose name stands for a key. -/
def under (key : String) (fields : List (String × Setting)) : List Setting :=
  (fields.filter fun field => Text.lowercase field.1 = key).map (·.2)

/-- The values of all fields whose name stands for a key, in tables that are themselves the values
of fields whose name stands for a group. -/
def within (group key : String) (fields : List (String × Setting)) : List Setting :=
  (under group fields).flatMap fun table => under key table.fields

/-- What a setting holds under a key of a group. -/
def member? (s : Setting) (group key : String) : Option Setting :=
  (s.get? group).bind (·.get? key)

section Reading

variable {value : Setting} {name key : String} {fields : List (String × Setting)}

/-- What stands under a key does not depend on whether a setting was made a table. -/
@[simp] theorem get?_asTable (s : Setting) (key : String) : s.asTable.get? key = s.get? key := by
  cases s <;> rfl

/-- A setting that was made a table is a table. -/
@[simp] theorem asTable_asTable (s : Setting) : s.asTable.asTable = s.asTable := by
  cases s <;> rfl

private theorem under_cons_self (hname : Text.lowercase name = key) :
    under key ((name, value) :: fields) = value :: under key fields := by
  simp [under, hname]

private theorem under_cons_of_ne (hname : Text.lowercase name ≠ key) :
    under key ((name, value) :: fields) = under key fields := by
  simp [under, hname]

private theorem get?_setField (s : Setting) (name key : String) (value : Setting) :
    (s.setField name value).get? key = if key = name then some value else s.get? key := by
  have hfields : ∀ origin fields, ((table origin fields).setField name value).get? key =
      if key = name then some value else (table origin fields).get? key := by
    intro origin fields
    simp only [get?, setField, asTable]
    rw [apply_ite Setting.fields]
    exact Keyed.lookup_set fields name key value
  cases s with
  | table origin fields => exact hfields origin fields
  | scalar origin value => exact hfields none []
  | list origin items => exact hfields none []

/-- A value that is no table takes the place of what was there. -/
theorem put_eq_setField (s : Setting) (name : String) (hvalue : value.isTable = false) :
    s.put name value = s.setField (Text.lowercase name) value := by
  cases value with
  | table origin fields => cases hvalue
  | scalar origin value => rw [put]
  | list origin items => rw [put]

/-- A table is joined with the table that was there. -/
theorem get?_put_table (s : Setting) (name : String) (origin : Option String)
    (fields : List (String × Setting)) :
    (s.put name (table origin fields)).get? (Text.lowercase name) =
      some (putAll ((s.get? (Text.lowercase name)).getD emptyTable) fields) := by
  rw [put, get?_setField, if_pos rfl, get?_asTable]

/-- Nothing else changes when a setting is put under a name. -/
theorem get?_put_of_ne (s : Setting) (value : Setting) (hname : Text.lowercase name ≠ key) :
    (s.put name value).get? key = s.get? key := by
  cases value <;> rw [put, get?_setField, if_neg hname.symm]

private theorem asTable_put (s : Setting) (name : String) (value : Setting) :
    s.asTable.put name value = s.put name value := by
  cases s with
  | table origin fields => rfl
  | scalar | list => cases value <;> simp only [put, setField, asTable_asTable]

end Reading

section Layering

variable {group key : String}

/-- The last of the fields that stand for a key decides what is there, as long as none is a
table. -/
theorem get?_putAll (fields : List (String × Setting)) (s : Setting)
    (hplain : ∀ value ∈ under key fields, value.isTable = false) :
    (putAll s fields).get? key = (under key fields).getLast?.or (s.get? key) := by
  induction fields generalizing s with
  | nil => rw [putAll]; rfl
  | cons field fields ih =>
    obtain ⟨name, value⟩ := field
    rw [putAll]
    by_cases hname : Text.lowercase name = key
    · rw [under_cons_self hname, List.forall_mem_cons] at hplain
      rw [ih _ hplain.2, under_cons_self hname, put_eq_setField s name hplain.1, get?_setField,
        if_pos hname.symm, List.getLast?_cons, Option.some_or]
      cases (under key fields).getLast? <;> rfl
    · rw [under_cons_of_ne hname] at hplain ⊢
      rw [ih _ hplain, get?_put_of_ne s value hname]

/-- Tables that are put over a group change the keys they hold, and no others. -/
theorem member?_putAll (fields : List (String × Setting)) (s : Setting)
    (htables : ∀ value ∈ under group fields, value.isTable = true)
    (hplain : ∀ value ∈ within group key fields, value.isTable = false) :
    (putAll s fields).member? group key =
      (within group key fields).getLast?.or (s.member? group key) := by
  induction fields generalizing s with
  | nil => rw [putAll]; rfl
  | cons field fields ih =>
    obtain ⟨name, value⟩ := field
    rw [putAll]
    unfold within at hplain ih ⊢
    -- A table of the group is itself put key by key; any other field leaves the group as it is.
    by_cases hname : Text.lowercase name = group
    · rw [under_cons_self hname] at htables hplain ⊢
      rw [List.forall_mem_cons] at htables
      rw [List.flatMap_cons, List.forall_mem_append] at hplain
      obtain ⟨origin, inner, rfl⟩ : ∃ origin inner, value = table origin inner := by
        cases value with
        | table origin inner => exact ⟨origin, inner, rfl⟩
        | scalar | list => cases htables.1
      have hinner : ((s.get? group).getD emptyTable).get? key = s.member? group key := by
        unfold member?
        cases s.get? group <;> rfl
      have hput : (s.put name (table origin inner)).member? group key =
          (under key inner).getLast?.or (s.member? group key) := by
        rw [member?, ← hname, get?_put_table, hname, Option.bind_some, get?_putAll inner _ hplain.1,
          hinner]
      rw [ih _ htables.2 hplain.2, hput, List.flatMap_cons, List.getLast?_append, Option.or_assoc]
      rfl
    · rw [under_cons_of_ne hname] at htables hplain ⊢
      rw [ih _ htables hplain, member?, get?_put_of_ne s value hname, ← member?]

/-- Fields whose names are no paths of several steps are put under their names. -/
theorem layer_eq_putAll (s : Setting) (fields : List (String × Setting))
    (hnames : ∀ field ∈ fields, (KeyPath.parse? field.1).getD [.child field.1] = [.child field.1]) :
    s.layer fields = putAll s fields := by
  unfold layer
  induction fields generalizing s with
  | nil => rw [putAll]; rfl
  | cons field fields ih =>
    rw [List.forall_mem_cons] at hnames
    obtain ⟨name, value⟩ := field
    have hstep : assign ((KeyPath.parse? name).getD [.child name]) value s = s.put name value := by
      rw [hnames.1, assign, asTable_put]
    rw [List.foldl_cons, putAll, ← ih _ hnames.2, ← hstep]

/-- A value that is assigned to a key of a group is what the key holds, and no other key changes. -/
theorem member?_assign (s : Setting) {value : Setting} (hvalue : value.isTable = false)
    (group' key' : String) :
    (assign [.child group, .child key] value s).member? group' key' =
      if group' = Text.lowercase group ∧ key' = Text.lowercase key then some value
      else s.member? group' key' := by
  have hinner (found : Option Setting) :
      (assign [.child key] value (found.getD null)).get? key' =
        if key' = Text.lowercase key then some value else found.bind (·.get? key') := by
    rw [assign, asTable_put, put_eq_setField _ key hvalue, get?_setField]
    cases found <;> rfl
  have houter : assign [.child group, .child key] value s = s.setField (Text.lowercase group)
      (assign [.child key] value ((s.get? (Text.lowercase group)).getD null)) := by
    rw [assign.eq_3, get?_asTable]
    simp
  rw [member?, houter, get?_setField]
  by_cases hgroup : group' = Text.lowercase group
  · rw [if_pos hgroup, Option.bind_some, hinner, member?, hgroup]
    by_cases hkey : key' = Text.lowercase key <;> simp [hkey]
  · rw [if_neg hgroup, if_neg (fun h => hgroup h.1), member?]

end Layering

end PromptOutline.Setting
