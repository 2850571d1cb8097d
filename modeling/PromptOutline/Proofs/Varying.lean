import PromptOutline.Proofs.Thinning
import PromptOutline.Proofs.Variants

/-!
# Runs over embedded files that vary

On workspaces that differ only in the contents of embedded files, a stream opens the same outlines
and the same embedded files. Its events are then the same up to the lines of these files: nothing in
such a line is looked at, and whatever stands behind the file comes in the same order.
-/

namespace PromptOutline

/-! ### The files of tokens -/

namespace Outline

private theorem fileName_of_moved {unit : Int} {margin : Nat} {p : Place} {column : Nat}
    {marks : List Token} (h : shift unit margin p column = .moved marks) :
    ∀ t ∈ marks, t.fileName = p.fileName := by
  unfold shift at h
  dsimp only at h
  split at h
  · cases h
    simp
  · split at h
    · cases h
    · cases h
      intro t ht
      rw [List.eq_of_mem_replicate ht]
      split <;> rfl

private theorem fileName_of_rejected {unit : Int} {margin : Nat} {p : Place} {column : Nat}
    {mark : Token}
    (h : shift unit margin p column = .rejected mark) : mark.fileName = p.fileName := by
  unfold shift at h
  dsimp only at h
  split at h
  · cases h
  · split at h
    · cases h
      split <;> rfl
    · cases h

private theorem ContentReading.fileName {unit : Int} {m : Margin} {p : Place} {column : Nat}
    {content : List Char} {r : Margin × List Token} (h : ContentReading unit m p column content r) :
    ∀ t ∈ r.2, t.fileName = p.fileName := by
  intro t ht
  cases h with
  | rejected hshift =>
    rw [List.mem_singleton.mp ht]
    exact fileName_of_rejected hshift
  | keyword _ hshift =>
    rcases List.mem_append.mp ht with ht | ht
    · exact fileName_of_moved hshift t ht
    · unfold keywordTokens at ht
      rcases List.mem_cons.mp ht with rfl | ht
      · rfl
      · split at ht
        · cases ht
        · rw [List.mem_singleton.mp ht]
          rfl
  | kept =>
    rw [List.mem_singleton.mp ht]
    rfl
  | text _ _ hshift =>
    rcases List.mem_append.mp ht with ht | ht
    · exact fileName_of_moved hshift t ht
    · rw [List.mem_singleton.mp ht]
      rfl

private theorem LineReading.fileName {unit : Int} {m : Margin} {p : Place} {r : Margin × List Token}
    (h : LineReading unit m p r) : ∀ t ∈ r.2, t.fileName = p.fileName := by
  intro t ht
  cases h with
  | blank =>
    simp only [List.mem_ite_nil_right, List.mem_singleton] at ht
    rw [ht.2]
    rfl
  | comment => cases ht
  | tab _ hread =>
    rcases List.mem_cons.mp ht with rfl | ht
    · rfl
    · exact hread.fileName t ht
  | content _ _ _ hread => exact hread.fileName t ht

private theorem fileName_of_mem_closingMarks {width : Nat} {fileName : String} {number column : Nat}
    {t : Token} (ht : t ∈ closingMarks width fileName number column) : t.fileName = fileName := by
  fun_induction closingMarks width fileName number column with
  | case1 column _ ih =>
    rcases List.mem_cons.mp ht with rfl | ht
    · rfl
    · exact ih ht
  | case2 => cases ht

/-- The tokens of an outline name its file. -/
theorem fileName_of_mem_tokens {width : UInt64} {fileName source : String} :
    ∀ t ∈ tokens width fileName source, t.fileName = fileName := by
  intro t ht
  rw [tokens_eq_content, content] at ht
  simp only [List.mem_append, List.mem_singleton] at ht
  rcases ht with (ht | ht) | rfl
  · refine readLines_invariant (fun _ _ ts => ∀ t ∈ ts, t.fileName = fileName) (by simp) ?_ t ht
    intro line _ number seen m ts r hts hread u hu
    exact (List.mem_append.mp hu).elim (hts u) (hread.fileName u)
  · exact fileName_of_mem_closingMarks ht
  · rfl

end Outline

namespace Sources

variable {w : Workspace}

/-- An outline is loaded from where its path leads. -/
theorem locate_of_load {s s' : Sources} {name : String} {f : SourceFile}
    (h : s.load w name = (s', .ok f)) : w.locate f.name = .ok f.location := by
  unfold load at h
  split at h
  · cases h
  · split at h
    · cases h
    · split at h
      · cases h
      · next l hlocate =>
        unfold readOnce at h
        split at h
        · cases h
        · split at h
          · cases h
          · cases h
            exact hlocate

/-- An embedded file is read under its path, from where the path leads. -/
theorem locate_of_loadEmbedded {path : String} {f : SourceFile}
    (h : loadEmbedded w path = .ok f) : f.name = path ∧ w.locate path = .ok f.location := by
  unfold loadEmbedded at h
  split at h
  · cases h
  · split at h
    · next hlocate _ =>
      cases h
      exact ⟨rfl, hlocate⟩
    · cases h
    · cases h

end Sources

/-! ### The parts of embedded files -/

namespace Embedding

/-- What a token is to embedded files. -/
inductive Part where
  /-- A line of such a file. -/
  | line
  /-- The fence behind the lines of such a file. -/
  | closing
  /-- Anything else. -/
  | other
  deriving Repr, DecidableEq

/-- The tokens of the lines of an embedded file. -/
def lines (f : SourceFile) : List Token := lineTokens f.name 1 (Text.lines f.contents.toList)

/-- The token of the fence behind the lines of an embedded file. -/
def closing (f : SourceFile) : Token :=
  textToken f.name "" fence ((Text.lines f.contents.toList).length + 1)

/-- What a token is to the files that are embedded from some locations. -/
def part (w : Workspace) (files : List Location) (t : Token) : Part :=
  match Sources.loadEmbedded w t.fileName with
  | .error _ => .other
  | .ok f =>
    if f.location ∉ files then .other
    else if t ∈ lines f then .line
    else if t = closing f then .closing
    else .other

/-- A token without what depends on the contents of embedded files: their lines are left out, and
the fences behind them have no line number. -/
def hushed (w : Workspace) (files : List Location) (t : Token) : Option Token :=
  match part w files t with
  | .line => none
  | .closing => some { t with line := 0 }
  | .other => some t

variable {w w' : Workspace} {files : List Location}

/-- The lines of an embedded file bear its name, and show themselves. -/
theorem mem_lineTokens {fileName : String} {number : Nat} {ls : List (List Char)} {t : Token}
    (ht : t ∈ lineTokens fileName number ls) : t.fileName = fileName ∧ t.rawLine = t.text := by
  induction ls generalizing number with
  | nil => cases ht
  | cons l ls ih =>
    rcases List.mem_cons.mp ht with rfl | ht
    · exact ⟨rfl, rfl⟩
    · exact ih ht

private theorem language_ne (fileName : String) : language fileName ≠ "" := by
  have hall : ∀ x ∈ languages, x.2 ≠ "" := by decide
  unfold language
  cases hfind : (Path.extension? fileName).bind fun ext =>
      languages.lookup (String.ofList (Keyword.lower ext.toList)) with
  | none => decide
  | some name =>
    obtain ⟨ext, -, hlookup⟩ := Option.bind_eq_some_iff.mp hfind
    obtain ⟨pre, post, heq, -⟩ := List.lookup_eq_some_iff.mp hlookup
    exact hall (String.ofList (Keyword.lower ext.toList), name) (by rw [heq]; simp)

/-- Everything that a token can be. -/
theorem part_cases (w : Workspace) (files : List Location) (t : Token) :
    part w files t = .other ∨
      ∃ f, Sources.loadEmbedded w t.fileName = .ok f ∧ f.location ∈ files ∧
        (part w files t = .line ∧ t ∈ lines f ∨
          part w files t = .closing ∧ t = closing f ∧ t ∉ lines f) := by
  unfold part
  split
  · exact .inl rfl
  · next f hf =>
    split
    · exact .inl rfl
    · next hl =>
      split
      · next hline => exact .inr ⟨f, hf, not_not.mp hl, .inl ⟨rfl, hline⟩⟩
      · next hline =>
        split
        · next hclosing => exact .inr ⟨f, hf, not_not.mp hl, .inr ⟨rfl, hclosing, hline⟩⟩
        · exact .inl rfl

/-- What a token is depends on no other file. -/
theorem hushed_congr {t : Token}
    (h : Sources.loadEmbedded w t.fileName = Sources.loadEmbedded w' t.fileName) :
    hushed w files t = hushed w' files t := by
  rw [hushed, hushed, part, part, h]

private theorem hushed_of_other {t : Token} (h : part w files t = .other) :
    hushed w files t = some t := by
  rw [hushed, h]

/-- Hushing tokens leaves out texts only. -/
theorem thins_hushed (w : Workspace) (files : List Location) : Grammar.Thins (hushed w files) where
  keeps t ht := by
    rcases part_cases w files t with hother | ⟨f, -, -, ⟨-, hline⟩ | ⟨-, rfl, -⟩⟩
    · exact hushed_of_other hother
    · exact absurd (kind_of_mem_lineTokens hline) ht
    · exact absurd rfl ht
  kinds t u hu := by
    unfold hushed at hu
    split at hu
    · cases hu
    · cases hu
      rfl
    · cases hu
      rfl

/-- A token of a file from elsewhere stays. -/
theorem hushed_of_locate {t : Token} (h : ∀ l, w.locate t.fileName = .ok l → l ∉ files) :
    hushed w files t = some t := by
  rcases part_cases w files t with hother | ⟨f, hf, hl, -⟩
  · exact hushed_of_other hother
  · exact absurd hl (h _ (Sources.locate_of_loadEmbedded hf).2)

/-- The tokens of an embedded file before its lines. -/
def opening (fileName : String) : Token := textToken fileName "" (fence ++ language fileName) 1

/-- The token that names an embedded file. -/
def heading (fileName : String) : Token := textToken fileName "" ("File: " ++ fileName) 1

private theorem content_eq (f : SourceFile) :
    content f.name f.contents = heading f.name :: opening f.name :: (lines f ++ [closing f]) := rfl

private theorem hushed_of_text {fileName text : String} (hempty : text ≠ "")
    (hfence : text ≠ fence) :
    hushed w files (textToken fileName "" text 1) = some (textToken fileName "" text 1) := by
  rcases part_cases w files (textToken fileName "" text 1) with
    hother | ⟨f, -, -, ⟨-, hline⟩ | ⟨-, hclosing, -⟩⟩
  · exact hushed_of_other hother
  · exact absurd (mem_lineTokens hline).2.symm hempty
  · exact absurd (congrArg Token.text hclosing) hfence

private theorem hushed_heading (fileName : String) :
    hushed w files (heading fileName) = some (heading fileName) := by
  apply hushed_of_text
  · intro he
    simpa using congrArg String.toList he
  · intro he
    have htext := congrArg String.toList he
    simp [fence] at htext

private theorem hushed_opening (fileName : String) :
    hushed w files (opening fileName) = some (opening fileName) := by
  apply hushed_of_text
  · intro he
    have htext := congrArg String.toList he
    simp [fence] at htext
  · intro he
    have htext := congrArg String.toList he
    rw [String.toList_append] at htext
    exact language_ne fileName (String.toList_inj.mp (List.append_right_eq_self.mp htext))

/-- What stays of an embedded file depends on its contents only from other locations. -/
theorem hushed_content {f : SourceFile} (hf : Sources.loadEmbedded w f.name = .ok f)
    (hl : f.location ∈ files) :
    (lines f ++ [closing f]).filterMap (hushed w files) = [textToken f.name "" fence 0] := by
  have hpart {t : Token} (ht : t.fileName = f.name) : part w files t =
      if t ∈ lines f then .line else if t = closing f then .closing else .other := by
    simp only [part, ht, hf, hl, not_true_eq_false, if_false]
  have hlines : (lines f).filterMap (hushed w files) = [] := by
    rw [List.filterMap_eq_nil_iff]
    intro t ht
    rw [hushed, hpart (mem_lineTokens ht).1, if_pos ht]
  have hclosing : hushed w files (closing f) = some (textToken f.name "" fence 0) := by
    have hline : closing f ∉ lines f := fun hm =>
      absurd (mem_lineTokens hm).2 (show "" ≠ fence by decide)
    rw [hushed, hpart rfl, if_neg hline, if_pos rfl]
    rfl
  rw [List.filterMap_append, hlines, List.filterMap_cons_some hclosing]
  rfl

end Embedding

/-! ### Events that vary -/

/-- Events that are the same up to texts: behind a text of both, further texts may differ in what a
change leaves out. -/
inductive Varies (f f' : Token → Option Token) : List Event → List Event → Prop where
  | nil : Varies f f' [] []
  | event {e : Event} {es es' : List Event}
      (he : ∀ t, e = .token t → f t = some t ∧ f' t = some t) (h : Varies f f' es es') :
      Varies f f' (e :: es) (e :: es')
  | texts {t : Token} {us us' : List Token} {es es' : List Event} (hkind : t.kind = .text)
      (ht : f t = some t ∧ f' t = some t) (hus : ∀ u ∈ us, u.kind = .text)
      (hus' : ∀ u ∈ us', u.kind = .text) (hsame : us.filterMap f = us'.filterMap f')
      (h : Varies f f' es es') :
      Varies f f' ((t :: us).map .token ++ es) ((t :: us').map .token ++ es')

namespace Varies

open Grammar

variable {f f' : Token → Option Token} {es es' : List Event}

/-- Events vary in both directions. -/
theorem symm (h : Varies f f' es es') : Varies f' f es' es := by
  induction h with
  | nil => exact .nil
  | event he _ ih => exact .event (fun t ht => (he t ht).symm) ih
  | texts hkind ht hus hus' hsame _ ih => exact .texts hkind ht.symm hus' hus hsame.symm ih

private theorem append {fs : List Event} (hfs : ∀ t, .token t ∈ fs → f t = some t ∧ f' t = some t)
    (h : Varies f f' es es') : Varies f f' (fs ++ es) (fs ++ es') := by
  induction fs with
  | nil => exact h
  | cons e fs ih =>
    refine .event (fun t ht => hfs t (by simp [ht])) (ih fun t ht => hfs t (by simp [ht]))

/-- Both have problems, or neither has. -/
theorem tokens_eq (h : Varies f f' es es') (hes : es = (Event.tokens es).map .token) :
    es' = (Event.tokens es').map .token := by
  induction h with
  | nil => rfl
  | @event e es es' he h ih =>
    cases e with
    | token t => exact congrArg (Event.token t :: ·) (ih (List.cons.inj hes).2)
    | problem d =>
      have hmem : Event.problem d ∈ (Event.tokens (.problem d :: es)).map Event.token := by
        rw [← hes]
        exact List.mem_cons_self
      simp at hmem
  | @texts t us us' es es' _ _ _ _ _ h ih =>
    rw [Event.tokens_append, Event.tokens_map, List.map_append] at hes ⊢
    rw [← ih (List.append_cancel_left hes)]

/-- What the changes leave is the same. -/
theorem filterMap_eq (h : Varies f f' es es') :
    (Event.tokens es).filterMap f = (Event.tokens es').filterMap f' := by
  induction h with
  | nil => rfl
  | @event e es es' he h ih =>
    cases e with
    | token t =>
      obtain ⟨ht, ht'⟩ := he t rfl
      exact (List.filterMap_cons_some ht).trans
        ((congrArg (t :: ·) ih).trans (List.filterMap_cons_some ht').symm)
    | problem d => exact ih
  | texts _ ht _ _ hsame _ ih =>
    rw [Event.tokens_append, Event.tokens_append, Event.tokens_map, Event.tokens_map,
      List.filterMap_append, List.filterMap_append, ih, List.filterMap_cons_some ht.1,
      List.filterMap_cons_some ht.2, hsame]

private theorem padded_texts (hf : Thins f) {t u : Token} (ht : t.kind = .text)
    (hu : u.kind = .text) {us : List Token} (hus : ∀ v ∈ us, v.kind = .text) :
    Padded (t :: us.filterMap f) (u :: us) := by
  induction us generalizing t u with
  | nil => exact Padded.nil.step (hu.trans ht.symm)
  | cons v us ih =>
    have hv : v.kind = .text := hus v (by simp)
    have hrest : ∀ v ∈ us, v.kind = .text := fun v hv => hus v (by simp [hv])
    cases hfv : f v with
    | none =>
      rw [List.filterMap_cons_none hfv]
      cases ih ht hv hrest with
      | @cons _ _ more _ vs hkind hmore h =>
        refine @Padded.cons t u (v :: more) _ vs (hu.trans ht.symm) ?_ h
        intro x hx
        rcases List.mem_cons.mp hx with rfl | hx
        · exact ⟨ht, hv⟩
        · exact hmore x hx
    | some v' =>
      rw [List.filterMap_cons_some hfv]
      exact (ih ((hf.kinds v v' hfv).trans hv) hv hrest).step (hu.trans ht.symm)

/-- What the first change leaves out are texts behind texts. -/
theorem padded (hf : Thins f) (h : Varies f f' es es') :
    Padded ((Event.tokens es).filterMap f) (Event.tokens es) := by
  induction h with
  | nil => exact .nil
  | @event e es es' he h ih =>
    cases e with
    | token t =>
      have hcons : (Event.tokens (.token t :: es)).filterMap f =
          t :: (Event.tokens es).filterMap f := List.filterMap_cons_some (he t rfl).1
      rw [hcons]
      exact ih.step rfl
    | problem d => exact ih
  | texts hkind ht hus _ _ _ ih =>
    rw [Event.tokens_append, Event.tokens_map, List.filterMap_append,
      List.filterMap_cons_some ht.1]
    exact (padded_texts hf hkind hkind hus).append ih

end Varies

/-! ### Embeddings -/

namespace Workspace.SameBut

open PromptOutline.Embedding

variable {files : List Location} {w w' : Workspace}

/-- An embedded file varies with its contents. -/
theorem varies_content (h : w.SameBut files w') {path : String} {f f' : SourceFile}
    (hf : Sources.loadEmbedded w path = .ok f) (hf' : Sources.loadEmbedded w' path = .ok f')
    {es es' : List Event} (hes : Varies (hushed w files) (hushed w' files) es es') :
    Varies (hushed w files) (hushed w' files)
      ((Embedding.content f.name f.contents).map .token ++ es)
      ((Embedding.content f'.name f'.contents).map .token ++ es') := by
  obtain ⟨rfl, -⟩ := Sources.locate_of_loadEmbedded hf
  obtain ⟨hname, -⟩ := Sources.locate_of_loadEmbedded hf'
  have htexts (g : SourceFile) :
      ∀ t ∈ opening g.name :: (lines g ++ [closing g]), t.kind = .text := by
    intro t ht
    have hmem : t ∈ Embedding.content g.name g.contents := List.mem_cons_of_mem _ ht
    exact kind_of_content hmem
  have hsame : (lines f ++ [closing f]).filterMap (hushed w files) =
      (lines f' ++ [closing f']).filterMap (hushed w' files) := by
    obtain he | ⟨g, g', hg, hg', hl, hl'⟩ := h.loadEmbedded_cases f.name
    · obtain rfl : f = f' := Except.ok.inj (hf.symm.trans (he.trans hf'))
      refine List.filterMap_congr fun t ht => hushed_congr ?_
      have hfile : t.fileName = f.name := by
        rcases List.mem_append.mp ht with ht | ht
        · exact (mem_lineTokens ht).1
        · rw [List.mem_singleton.mp ht]
          rfl
      rw [hfile, he]
    · obtain rfl : f = g := Except.ok.inj (hf.symm.trans hg)
      obtain rfl : f' = g' := Except.ok.inj (hf'.symm.trans hg')
      rw [hushed_content hf hl, hushed_content (hname ▸ hf') hl', hname]
  rw [content_eq, content_eq, hname]
  refine .texts rfl ⟨hushed_heading _, hushed_heading _⟩ (htexts f) (hname ▸ htexts f') ?_ hes
  rw [List.filterMap_cons_some (hushed_opening _), List.filterMap_cons_some (hushed_opening _),
    hsame]

/-- The same files are loaded to be embedded, and they vary with their contents. -/
theorem loads_varied (h : w.SameBut files w') (paths : List String) :
    (∃ fault, paths.mapM (Sources.loadEmbedded w) = .error fault ∧
      paths.mapM (Sources.loadEmbedded w') = .error fault) ∨
    ∃ fs fs', paths.mapM (Sources.loadEmbedded w) = .ok fs ∧
      paths.mapM (Sources.loadEmbedded w') = .ok fs' ∧
      ∀ es es', Varies (hushed w files) (hushed w' files) es es' →
        Varies (hushed w files) (hushed w' files)
          ((fs.flatMap fun f => Embedding.content f.name f.contents).map .token ++ es)
          ((fs'.flatMap fun f => Embedding.content f.name f.contents).map .token ++ es') := by
  induction paths with
  | nil => exact .inr ⟨[], [], rfl, rfl, fun _ _ hes => hes⟩
  | cons path paths ih =>
    have hfirst : (∃ fault, Sources.loadEmbedded w path = .error fault ∧
          Sources.loadEmbedded w' path = .error fault) ∨
        ∃ f f', Sources.loadEmbedded w path = .ok f ∧ Sources.loadEmbedded w' path = .ok f' := by
      obtain he | ⟨f, f', hf, hf', -, -⟩ := h.loadEmbedded_cases path
      · rw [he]
        cases Sources.loadEmbedded w' path with
        | error fault => exact .inl ⟨fault, rfl, rfl⟩
        | ok f => exact .inr ⟨f, f, rfl, rfl⟩
      · exact .inr ⟨f, f', hf, hf'⟩
    simp only [List.mapM_cons]
    obtain ⟨fault, hf, hf'⟩ | ⟨f, f', hf, hf'⟩ := hfirst
    · rw [hf, hf']
      exact .inl ⟨fault, rfl, rfl⟩
    · rw [hf, hf']
      obtain ⟨fault, hfs, hfs'⟩ | ⟨fs, fs', hfs, hfs', hvaries⟩ := ih
      · rw [hfs, hfs']
        exact .inl ⟨fault, rfl, rfl⟩
      · rw [hfs, hfs']
        refine .inr ⟨f :: fs, f' :: fs', rfl, rfl, fun es es' hes => ?_⟩
        simp only [List.flatMap_cons, List.map_append, List.append_assoc]
        exact h.varies_content hf hf' (hvaries es es' hes)

/-- The same patterns match, and the matched files vary with their contents. -/
theorem embeddedEvents_cases (h : w.SameBut files w') (s : Sources) (pattern : Token) :
    (∃ d, embeddedEvents w s pattern = .error d ∧ embeddedEvents w' s pattern = .error d) ∨
      ∃ fs fs', embeddedEvents w s pattern = .ok fs ∧ embeddedEvents w' s pattern = .ok fs' ∧
        ∀ es es', Varies (hushed w files) (hushed w' files) es es' →
          Varies (hushed w files) (hushed w' files) (fs ++ es) (fs' ++ es') := by
  have hproblem (d : Diagnostic) (es es' : List Event)
      (hes : Varies (hushed w files) (hushed w' files) es es') :
      Varies (hushed w files) (hushed w' files) ([.problem d] ++ es) ([.problem d] ++ es') :=
    .event (by simp) hes
  simp only [embeddedEvents, ← h.expand_eq]
  split
  · split
    · exact .inl ⟨_, rfl, rfl⟩
    · exact .inr ⟨_, _, rfl, rfl, hproblem _⟩
  · exact .inr ⟨_, _, rfl, rfl, hproblem _⟩
  · next path paths _ =>
    obtain ⟨fault, hw, hw'⟩ | ⟨fs, fs', hw, hw', hvaries⟩ := h.loads_varied (path :: paths)
    · simp only [hw, hw']
      exact .inl ⟨_, rfl, rfl⟩
    · simp only [hw, hw', contentTokens_embedding]
      exact .inr ⟨_, _, rfl, rfl, hvaries⟩

end Workspace.SameBut

namespace Stream

variable {w w' : Workspace} {width : UInt64}

/-! ### Lookups past embedded files -/

private theorem lookups_of_finished {s : Stream} (h : s.step w width = .finished) :
    s.lookups w width = (s.lookup? w).toList := by
  rw [lookups]
  split
  · next hs => cases h.symm.trans hs
  · exact List.append_nil _

/-- What a run looks up does not depend on the file that ended before it. -/
theorem lookups_ending (s : Sources) (opened : List (List Token)) (ending ending' : Token) :
    lookups w width { sources := s, opened, ending } =
      lookups w width { sources := s, opened, ending := ending' } := by
  induction hx : ({ sources := s, opened, ending } : Stream) using step_induction w width
    generalizing s opened ending ending' with
  | next x ih =>
    subst hx
    cases opened with
    | nil => rw [lookups_of_finished rfl, lookups_of_finished rfl]; rfl
    | cons ts outer =>
      have hlookup : lookup? w { sources := s, opened := ts :: outer, ending } =
          lookup? w { sources := s, opened := ts :: outer, ending := ending' } :=
        (lookup?_outer s ts outer ending).trans (lookup?_outer s ts outer ending').symm
      rcases step_cases w width s ts with ⟨d, hfail⟩ | ⟨es, s', files, last, -, hnext⟩
      · rw [lookups_of_failed (hfail _ _), lookups_of_failed (hfail _ _), hlookup]
      · rw [lookups_of_next (hnext outer ending), lookups_of_next (hnext outer ending'), hlookup,
          ih es _ (hnext outer ending) s' _ _ _ rfl]

/-- Nothing is looked up in embedded files. -/
theorem lookups_embedded (s : Sources) (files : List SourceFile) (outer : List (List Token))
    (ending ending' : Token) :
    lookups w width
        { sources := s,
          opened := files.map (fun f => Embedding.tokens f.name f.contents) ++ outer, ending } =
      lookups w width { sources := s, opened := outer, ending := ending' } := by
  have hplain (ts : List Token) (hts : ∀ t ∈ ts, t.kind = .text) (e : Token)
      (he : e.kind = .endOfFile) (outer : List (List Token)) (ending : Token) :
      lookups w width { sources := s, opened := (ts ++ [e]) :: outer, ending } =
        lookups w width { sources := s, opened := outer, ending := e } := by
    induction ts with
    | nil =>
      rw [List.nil_append, lookups_of_next (step_ending he), lookup?_of_kind (by simp [he])]
      rfl
    | cons t ts ih =>
      have ht : t.kind = .text := hts t (by simp)
      rw [List.cons_append, lookups_of_next (step_token (by rw [ht]; rfl)),
        lookup?_of_kind (by simp [ht]), ih fun u hu => hts u (by simp [hu])]
      rfl
  induction files generalizing ending with
  | nil => exact lookups_ending s outer ending ending'
  | cons f files ih =>
    rw [List.map_cons, List.cons_append, Embedding.tokens_eq_content,
      hplain _ (fun t ht => Embedding.kind_of_content ht) _ rfl, ih]

/-- Behind a pattern, a run looks up what it does without the files that match. -/
theorem lookups_embed {s : Sources} {t pattern ending : Token} {rest : List Token}
    {outer : List (List Token)} {es : List Event} (ht : t.kind = .embedFiles)
    (hpattern : pattern.kind = .keywordText) (hes : embeddedEvents w s pattern = .ok es)
    (last : Token) :
    lookups w width { sources := s, opened := (t :: pattern :: rest) :: outer, ending } =
      lookups w width { sources := s, opened := rest :: outer, ending := last } := by
  obtain ⟨problems, matched, -, hstep⟩ :=
    @step_embed w width s t pattern ending rest outer es ht hpattern hes
  rw [lookups_of_next hstep, lookup?_of_kind (by simp [ht]), lookups_embedded s matched _ _ last]
  rfl

/-! ### Runs that vary -/

/-- Induction from all streams that a stream can lead to. -/
theorem below_induction (w : Workspace) {P : Stream → Prop}
    (next : ∀ s, (∀ s', Below w s' s → P s') → P s) (s : Stream) : P s :=
  next s fun s' _ => below_induction w next s'
  termination_by (s.unused w, s.directives, s.waiting)
  decreasing_by assumption

/-- Outcomes that agree: both streams end, or both fail with one problem. -/
inductive Outcome.Agrees : Outcome → Outcome → Prop where
  | finished (ending ending' : Token) : Outcome.Agrees (.finished ending) (.finished ending')
  | failed (d : Diagnostic) : Outcome.Agrees (.failed d) (.failed d)

private theorem Outcome.Agrees.symm {o o' : Outcome} (h : o.Agrees o') : o'.Agrees o := by
  cases h with
  | finished ending ending' => exact .finished ending' ending
  | failed d => exact .failed d

/-- Runs whose events vary and whose outcomes agree. -/
structure VariedRuns (f f' : Token → Option Token) (r r' : List Event × Outcome) : Prop where
  events : Varies f f' r.1 r'.1
  outcome : r.2.Agrees r'.2

namespace VariedRuns

variable {f f' : Token → Option Token}

/-- Runs vary in both directions. -/
theorem symm {r r' : List Event × Outcome} (h : VariedRuns f f' r r') : VariedRuns f' f r' r :=
  ⟨h.events.symm, h.outcome.symm⟩

private theorem of_finished {s s' : Stream} (h : s.step w width = .finished)
    (h' : s'.step w' width = .finished) : VariedRuns f f' (s.run w width) (s'.run w' width) := by
  rw [run_of_finished h, run_of_finished h']
  exact ⟨.nil, .finished _ _⟩

private theorem of_failed {s s' : Stream} {d : Diagnostic} (h : s.step w width = .failed d)
    (h' : s'.step w' width = .failed d) : VariedRuns f f' (s.run w width) (s'.run w' width) := by
  rw [run_of_failed h, run_of_failed h']
  exact ⟨.nil, .failed d⟩

/-- Steps with the same events, which no change leaves out. -/
theorem of_next {s s' t t' : Stream} {es : List Event} (h : s.step w width = .next es t)
    (h' : s'.step w' width = .next es t')
    (hes : ∀ u, .token u ∈ es → f u = some u ∧ f' u = some u)
    (hrest : VariedRuns f f' (t.run w width) (t'.run w' width)) :
    VariedRuns f f' (s.run w width) (s'.run w' width) := by
  rw [run_of_next h, run_of_next h']
  exact ⟨hrest.events.append hes, hrest.outcome⟩

open PromptOutline.Embedding in
/-- The files that a pattern matches vary with their contents. -/
theorem of_embed {files : List Location} (h : w.SameBut files w') {s : Sources}
    {t pattern : Token} {rest : List Token} {outer : List (List Token)} {ending ending' : Token}
    (ht : t.kind = .embedFiles) (hpattern : pattern.kind = .keywordText)
    (hrest : ∀ es last last', embeddedEvents w s pattern = .ok es →
      VariedRuns (hushed w files) (hushed w' files)
        (run w width { sources := s, opened := rest :: outer, ending := last })
        (run w' width { sources := s, opened := rest :: outer, ending := last' })) :
    VariedRuns (hushed w files) (hushed w' files)
      (run w width { sources := s, opened := (t :: pattern :: rest) :: outer, ending })
      (run w' width
        { sources := s, opened := (t :: pattern :: rest) :: outer, ending := ending' }) := by
  obtain ⟨d, hw, hw'⟩ | ⟨es, es', hw, hw', hvaries⟩ := h.embeddedEvents_cases s pattern
  · exact .of_failed (step_embed_error ht hpattern hw) (step_embed_error ht hpattern hw')
  · obtain ⟨last, hrun⟩ := @run_embed w width s t pattern ending rest outer es ht hpattern hw
    obtain ⟨last', hrun'⟩ :=
      @run_embed w' width s t pattern ending' rest outer es' ht hpattern hw'
    obtain ⟨hevents, houtcome⟩ := hrest es last last' hw
    rw [hrun, hrun']
    exact ⟨hvaries _ _ hevents, houtcome⟩

end VariedRuns

open PromptOutline.Embedding in
/-- Streams with the same open outlines run the same on both workspaces, up to the contents of
embedded files, as long as no outline is looked up at the locations of these files. -/
theorem variedRuns {files : List Location} (h : w.SameBut files w') (s : Sources)
    (opened : List (List Token)) (ending ending' : Token)
    (hopened : ∀ ts ∈ opened, ∀ t ∈ ts, ∀ l, w.locate t.fileName = .ok l → l ∉ files)
    (hlookups : ∀ l ∈ lookups w width { sources := s, opened, ending }, l ∉ files) :
    VariedRuns (hushed w files) (hushed w' files)
      (run w width { sources := s, opened, ending })
      (run w' width { sources := s, opened, ending := ending' }) := by
  induction hx : ({ sources := s, opened, ending } : Stream) using below_induction w
    generalizing s opened ending ending' with
  | next x ih =>
    subst hx
    cases opened with
    | nil => exact .of_finished rfl rfl
    | cons ts outer =>
      have hopen {rest : List Token} (hrest : rest ⊆ ts) : ∀ us ∈ rest :: outer, ∀ t ∈ us,
          ∀ l, w.locate t.fileName = .ok l → l ∉ files := by
        intro us hus t ht
        rcases List.mem_cons.mp hus with rfl | hus
        · exact hopened ts (by simp) t (hrest ht)
        · exact hopened us (by simp [hus]) t ht
      -- a step that does the same on both workspaces and gives no token of an embedded file
      have hsame {es : List Event} {r : Sources} {opened : List (List Token)} {e e' : Token}
          (hw : step w width { sources := s, opened := ts :: outer, ending } =
            .next es { sources := r, opened, ending := e })
          (hw' : step w' width { sources := s, opened := ts :: outer, ending := ending' } =
            .next es { sources := r, opened, ending := e' })
          (hes : ∀ t, .token t ∈ es → t ∈ ts)
          (hopened' : ∀ us ∈ opened, ∀ t ∈ us, ∀ l, w.locate t.fileName = .ok l → l ∉ files) :
          VariedRuns (hushed w files) (hushed w' files)
            (run w width { sources := s, opened := ts :: outer, ending })
            (run w' width { sources := s, opened := ts :: outer, ending := ending' }) := by
        rw [lookups_of_next hw] at hlookups
        refine .of_next hw hw' (fun t ht => ?_) (ih _ (below_of_step hw) r opened e e' hopened'
          (fun l hl => hlookups l (List.mem_append_right _ hl)) rfl)
        have hplain := hopened ts (by simp) t (hes t ht)
        exact ⟨hushed_of_locate hplain, hushed_of_locate (h.locate_eq ▸ hplain)⟩
      cases front ts with
      | nothing => exact hsame rfl rfl (by simp) fun us hus => hopened us (by simp [hus])
      | ending ht =>
        exact hsame (step_ending ht) (step_ending ht) (by simp) fun us hus =>
          hopened us (by simp [hus])
      | token ht =>
        exact hsame (step_token ht) (step_token ht) (by simp) (hopen (List.subset_cons_self ..))
      | bare ht hbare =>
        refine hsame (step_bare ht hbare) (step_bare ht hbare) ?_ (hopen (List.subset_cons_self ..))
        simp [bareDirective]
      | @included t name rest ht hname =>
        have hname? : ∀ l ∈ s.lookup? w name.text, l ∉ files := by
          intro l hl
          apply hlookups
          rw [lookups, lookup?_included ht hname]
          exact List.mem_append_left _ (Option.mem_toList.mpr hl)
        have hload := h.load_eq hname?
        rcases hresult : s.load w name.text with ⟨r, fault | file⟩
        · exact .of_failed (step_include_error ht hname hresult)
            (step_include_error ht hname (hload ▸ hresult))
        · refine hsame (step_include ht hname hresult) (step_include ht hname (hload ▸ hresult))
            (by simp) ?_
          intro us hus
          rcases List.mem_cons.mp hus with rfl | hus
          · intro t ht l hl
            rw [Outline.fileName_of_mem_tokens t ht, Sources.locate_of_load hresult] at hl
            cases hl
            exact hname? _ (Sources.load_cases hresult).1
          · exact hopen (fun u hu => by simp [hu]) us hus
      | @embedded t pattern rest ht hpattern =>
        refine .of_embed h ht hpattern fun es last last' hes => ?_
        rw [lookups_embed ht hpattern hes last] at hlookups
        exact ih { sources := s, opened := rest :: outer, ending := last }
          (below_of_directives rfl (directives_drop_two rfl (by rw [ht]; rfl)))
          s (rest :: outer) last last' (hopen fun u hu => by simp [hu]) hlookups rfl

end Stream

end PromptOutline
