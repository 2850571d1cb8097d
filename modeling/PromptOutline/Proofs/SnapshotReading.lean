import Mathlib.Data.List.Nodup
import PromptOutline.Proofs.JsonReading
import PromptOutline.Snapshot.Json

/-!
# Snapshots through JSON

The JSON of a snapshot leaves out a form that is not there and children that are none, and reading
puts them back. So sections are read as they were written, as long as their numbers have 64 bits and
they are not nested too deeply to be read; and whatever the numbers and the depth, two snapshots
never have the same JSON. The same holds of tokens, which are not nested.
-/

namespace PromptOutline

/-! ### Nesting -/

namespace Json

mutual

/-- The number of arrays and objects around the innermost part of a value, its own included. -/
def nesting : Json → Nat
  | array items => nestingItems items + 1
  | object fields => nestingFields fields + 1
  | _ => 0

/-- The nesting of the deepest of some values. -/
def nestingItems : List Json → Nat
  | [] => 0
  | item :: rest => max (nesting item) (nestingItems rest)

/-- The nesting of the deepest of some fields. -/
def nestingFields : List (Option String × Json) → Nat
  | [] => 0
  | (_, value) :: rest => max (nesting value) (nestingFields rest)

end

/-! ### Records -/

private theorem lookup_ofFields (fields : List (String × Json)) (name : String) :
    (fields.map fun (key, value) => (some key, value)).lookup (some name) = fields.lookup name := by
  induction fields with
  | nil => rfl
  | cons field fields ih =>
    rw [List.map_cons, List.lookup_cons, List.lookup_cons, ih]
    rfl

/-- The fields of an object that was written are found by their names. -/
theorem record?_ofFields {fields : List (String × Json)} (h : (fields.map Prod.fst).Nodup)
    (names : List String) (least : Nat) :
    (ofFields fields).record? names least = some (names.map fun name => fields.lookup name) := by
  have hkeys : (fields.map fun (key, value) => (some key, value)).mapM (fun f => f.1) =
      some (fields.map Prod.fst) := by
    clear h
    induction fields with
    | nil => rfl
    | cons field fields ih => rw [List.map_cons, List.mapM_cons, ih]; rfl
  have honce (name : String) : (fields.map Prod.fst).count name ≤ 1 :=
    List.nodup_iff_count_le_one.mp h name
  simp only [ofFields, record?, namedFields?, hkeys, Option.bind_eq_bind, Option.bind_some, honce,
    lookup_ofFields]
  simp

end Json

namespace Snapshot

mutual

/-- Whether all numbers of a snapshot have 64 bits. -/
def isBounded : Snapshot → Bool
  | node _ _ line column _ children =>
    line < UInt64.size && column < UInt64.size && areBounded children

/-- Whether all numbers of some snapshots have 64 bits. -/
def areBounded : List Snapshot → Bool
  | [] => true
  | s :: rest => isBounded s && areBounded rest

end

/-! ### Writing -/

mutual

private theorem isWhole_toJson : (s : Snapshot) → s.toJson.isWhole = true
  | node nodeType label line column form children => by
    have hchildren := areWhole_toJsons children
    cases form <;> cases children <;>
      simp_all [toJson, Json.ofFields, Json.isWhole, Json.haveWhole]

/-- All numbers in written snapshots are natural. -/
theorem areWhole_toJsons : (ss : List Snapshot) → Json.areWhole (toJsons ss) = true
  | [] => rfl
  | s :: rest => by rw [toJsons, Json.areWhole, isWhole_toJson s, areWhole_toJsons rest]; rfl

end

/-- The fields of a snapshot as they are found by their names. -/
theorem record?_toJson (nodeType label : String) (line column : Nat) (form : Option TextForm)
    (children : List Snapshot) :
    (toJson (node nodeType label line column form children)).record?
        ["node_type", "label", "line", "column", "form", "children"] 4 =
      some [some (.text nodeType), some (.text label), some (.natural line),
        some (.natural column), form.map fun f => .text f.name,
        if children.isEmpty then none else some (.array (toJsons children))] := by
  cases form <;> cases children <;>
    rw [toJson, Json.record?_ofFields (by simp)] <;> rfl

/-- A level for the snapshot, and one more for its children if there are any. -/
theorem nesting_toJson (nodeType label : String) (line column : Nat) (form : Option TextForm)
    (children : List Snapshot) :
    (toJson (node nodeType label line column form children)).nesting =
      (if children.isEmpty then 0 else Json.nestingItems (toJsons children) + 1) + 1 := by
  cases form <;> cases children <;>
    simp [toJson, Json.ofFields, Json.nesting, Json.nestingFields]

/-! ### Reading -/

private theorem readForm?_name (depth : Nat) (form : Option TextForm) :
    readForm? depth (form.map fun f => .text f.name) = some form := by
  cases form with
  | none => rfl
  | some f => simp [readForm?, Json.alternative?, TextForm.ofName?_name]

/-- A record is read if its numbers have 64 bits and its children are read. -/
theorem ofRecord?_toJson {depth line column : Nat} {children : List Snapshot}
    {readItems? : List Json → Option (List Snapshot)} (hline : line < UInt64.size)
    (hcolumn : column < UInt64.size)
    (hitems : children ≠ [] → readItems? (toJsons children) = some children)
    (nodeType label : String) (form : Option TextForm) :
    ofRecord? depth readItems? (toJson (node nodeType label line column form children)) =
      some (node nodeType label line column form children) := by
  rw [ofRecord?, record?_toJson]
  cases children with
  | nil => simp [readForm?_name, Json.text?, Json.word?, hline, hcolumn]
  | cons s rest =>
    simp [hitems, readForm?_name, Json.text?, Json.word?, hline, hcolumn]

mutual

/-- A snapshot is read as it was written, within the levels that are allowed. -/
theorem ofJson?_toJson : (s : Snapshot) → s.isBounded = true → ∀ depth,
    s.toJson.nesting ≤ depth → ofJson? depth s.toJson = some s
  | node nodeType label line column form children, hs, depth, hdepth => by
    rw [isBounded, Bool.and_eq_true, Bool.and_eq_true, decide_eq_true_eq, decide_eq_true_eq] at hs
    obtain ⟨⟨hline, hcolumn⟩, hchildren⟩ := hs
    rw [nesting_toJson] at hdepth
    match depth with
    | 0 => omega
    | 1 =>
      refine ofRecord?_toJson hline hcolumn (fun hne => ?_) nodeType label form
      simp [hne] at hdepth
    | inner + 2 =>
      refine ofRecord?_toJson hline hcolumn (fun hne => ?_) nodeType label form
      exact ofJsons?_toJsons children hchildren inner (by simpa [hne] using hdepth)

/-- The snapshots of a forest are read back. -/
theorem ofJsons?_toJsons : (ss : List Snapshot) → areBounded ss = true → ∀ depth,
    Json.nestingItems (toJsons ss) ≤ depth → (toJsons ss).mapM (ofJson? depth) = some ss
  | [], _, _, _ => rfl
  | s :: rest, hs, depth, hdepth => by
    rw [areBounded, Bool.and_eq_true] at hs
    rw [toJsons, Json.nestingItems, Nat.max_le] at hdepth
    rw [toJsons, List.mapM_cons, ofJson?_toJson s hs.1 depth hdepth.1,
      ofJsons?_toJsons rest hs.2 depth hdepth.2]
    rfl

end

/-! ### Telling snapshots apart -/

mutual

/-- Snapshots with the same JSON are the same, however deep they are. -/
theorem toJson_injective : (s t : Snapshot) → s.toJson = t.toJson → s = t
  | node nodeType label line column form children,
    node nodeType' label' line' column' form' children', h => by
    have hrecord := congrArg
      (Json.record? ["node_type", "label", "line", "column", "form", "children"] 4) h
    rw [record?_toJson, record?_toJson] at hrecord
    simp only [Option.some.injEq, List.cons.injEq, Json.text.injEq, Json.natural.injEq, and_true]
      at hrecord
    obtain ⟨rfl, rfl, rfl, rfl, hform, hchildren⟩ := hrecord
    obtain rfl : form = form' := by
      have hread := congrArg (readForm? 0) hform
      rwa [readForm?_name, readForm?_name, Option.some.injEq] at hread
    obtain rfl : children = children' := by
      cases children with
      | nil =>
        cases children' with
        | nil => rfl
        | cons t ts => simp at hchildren
      | cons s ss =>
        cases children' with
        | nil => simp at hchildren
        | cons t ts => exact toJsons_injective (s :: ss) (t :: ts) (by simpa using hchildren)
    rfl

/-- Forests with the same snapshots are the same. -/
theorem toJsons_injective : (ss ts : List Snapshot) → toJsons ss = toJsons ts → ss = ts
  | [], [], _ => rfl
  | [], _ :: _, h => by cases h
  | _ :: _, [], h => by cases h
  | s :: ss, t :: ts, h => by
    rw [toJsons, toJsons, List.cons.injEq] at h
    rw [toJson_injective s t h.1, toJsons_injective ss ts h.2]

end

end Snapshot

/-! ### Sections -/

namespace Sections

/-- The value of a section: `null` where there is none. -/
def writeSection (s : Option Snapshot) : Json := (s.map Snapshot.toJson).getD .null

private theorem toJson_eq (s : Sections) :
    s.toJson = .ofFields [("role", writeSection s.role), ("context", writeSection s.context),
      ("action", writeSection s.action)] := rfl

/-- All numbers in written sections are natural. -/
theorem isWhole_toJson (s : Sections) : s.toJson.isWhole = true := by
  have hsection (t : Option Snapshot) : (writeSection t).isWhole = true := by
    cases t with
    | none => rfl
    | some t => exact t.isWhole_toJson
  simp [toJson_eq, Json.ofFields, Json.isWhole, Json.haveWhole, hsection]

private theorem readSection?_toJson (depth : Nat) (t : Snapshot) :
    readSection? depth (some t.toJson) = (Snapshot.ofJson? depth t.toJson).map some := by
  cases t
  rw [Snapshot.toJson, Json.ofFields]
  rfl

private theorem readSection?_writeSection {s : Option Snapshot} {depth : Nat}
    (hs : ∀ t ∈ s, t.isBounded = true) (hdepth : (writeSection s).nesting ≤ depth) :
    readSection? depth (some (writeSection s)) = some s := by
  cases s with
  | none => rfl
  | some t =>
    have hread := t.ofJson?_toJson (hs t rfl) depth hdepth
    rw [writeSection, Option.map_some, Option.getD_some, readSection?_toJson, hread]
    rfl

private theorem nesting_toJson (s : Sections) :
    s.toJson.nesting = max (writeSection s.role).nesting
      (max (writeSection s.context).nesting (writeSection s.action).nesting) + 1 := by
  simp [toJson_eq, Json.ofFields, Json.nesting, Json.nestingFields]

/-- Sections are read as they were written. -/
theorem ofJson?_toJson {s : Sections} (hbounded : ∀ t ∈ s.present, t.isBounded = true)
    (hnesting : s.toJson.nesting ≤ Json.nestingLimit) : ofJson? s.toJson = some s := by
  rw [nesting_toJson] at hnesting
  have hread {t : Option Snapshot} (ht : t ∈ [s.role, s.context, s.action])
      (hdepth : (writeSection t).nesting ≤ Json.nestingLimit - 1) :
      readSection? (Json.nestingLimit - 1) (some (writeSection t)) = some t :=
    readSection?_writeSection
      (fun u hu => hbounded u (List.mem_filterMap.mpr ⟨t, ht, hu⟩)) hdepth
  have hrole := hread (t := s.role) (by simp) (by omega)
  have hcontext := hread (t := s.context) (by simp) (by omega)
  have haction := hread (t := s.action) (by simp) (by omega)
  have hrecord : s.toJson.record? ["role", "context", "action"] 3 =
      some [some (writeSection s.role), some (writeSection s.context),
        some (writeSection s.action)] := by
    rw [toJson_eq, Json.record?_ofFields (by simp)]
    rfl
  rw [ofJson?, hrecord]
  simp [hrole, hcontext, haction]

/-- Sections with the same JSON are the same. -/
theorem toJson_injective {s t : Sections} (h : s.toJson = t.toJson) : s = t := by
  have hsection {u v : Option Snapshot} (huv : writeSection u = writeSection v) : u = v := by
    have hnull (x : Snapshot) : x.toJson ≠ .null := by
      cases x
      rw [Snapshot.toJson, Json.ofFields]
      simp
    cases u with
    | none =>
      cases v with
      | none => rfl
      | some y => exact absurd huv.symm (hnull y)
    | some x =>
      cases v with
      | none => exact absurd huv (hnull x)
      | some y => rw [Snapshot.toJson_injective x y huv]
  obtain ⟨role, context, action⟩ := s
  obtain ⟨role', context', action'⟩ := t
  simp only [toJson_eq, Json.ofFields, Json.object.injEq, List.map_cons, List.cons.injEq,
    Prod.mk.injEq, true_and] at h
  rw [hsection h.1, hsection h.2.1, hsection h.2.2.1]

end Sections

/-! ### Tokens -/

namespace Token

/-- A token is read as it was written. -/
theorem ofJson?_toJson {t : Token} (hline : t.line < UInt64.size) (hcolumn : t.column < UInt64.size)
    (depth : Nat) : ofJson? (depth + 1) t.toJson = some t := by
  have hrecord : t.toJson.record? ["kind", "text", "raw_line", "filename", "line", "column"] 6 =
      some [some (.text t.kind.name), some (.text t.text), some (.text t.rawLine),
        some (.text t.fileName), some (.natural t.line), some (.natural t.column)] := by
    rw [toJson, Json.record?_ofFields (by simp)]
    rfl
  rw [ofJson?, hrecord]
  simp [Json.alternative?, Json.text?, Json.word?, TokenKind.ofName?_name, hline, hcolumn]

private theorem areWhole_toJson (ts : List Token) : Json.areWhole (ts.map toJson) = true := by
  induction ts with
  | nil => rfl
  | cons t ts ih =>
    rw [List.map_cons, Json.areWhole, ih, Bool.and_true]
    rfl

/-- The tokens of a text in JSON are those that were written. -/
theorem parseAll?_renderAll {ts : List Token}
    (h : ∀ t ∈ ts, t.line < UInt64.size ∧ t.column < UInt64.size) :
    parseAll? (renderAll ts) = some ts := by
  have hitems : (ts.map toJson).mapM (ofJson? (Json.nestingLimit - 1)) = some ts := by
    induction ts with
    | nil => rfl
    | cons t ts ih =>
      obtain ⟨hline, hcolumn⟩ := h t List.mem_cons_self
      have hread : ofJson? (Json.nestingLimit - 1) t.toJson = some t :=
        ofJson?_toJson hline hcolumn _
      rw [List.map_cons, List.mapM_cons, hread, ih fun u hu => h u (List.mem_cons_of_mem t hu)]
      rfl
  have hparse : Json.parse? (renderAll ts) = some (.array (ts.map toJson)) :=
    Json.parse?_pretty (j := .array (ts.map toJson)) (areWhole_toJson ts) 0
  simp [parseAll?, hparse, hitems]

end Token

end PromptOutline
