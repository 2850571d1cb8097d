import PromptOutline.Proofs.KeyedLists
import PromptOutline.Proofs.Rows
import PromptOutline.Proofs.Variants

/-!
# Workspaces with a file opened for writing

Opening a file for writing leaves an empty file where there was another one or nothing. Paths lead
where they led before, unless they lead to the new file, and so do patterns: where a walk meets the
new file it finds one path more, and below that path there is nothing.
-/

namespace PromptOutline

/-! ### The texts of paths -/

namespace Path

/-- A name without a slash is its own only part. -/
theorem parts_of_notMem {name : String} (h : '/' ∉ name.toList) : parts name = [name] := by
  rw [parts, Text.splitAt, Text.pieces_of_notMem h, List.map_singleton, String.ofList_toList]

/-- There is no slash in a part of a path. -/
theorem slash_of_mem_parts {path part : String} (h : part ∈ parts path) : '/' ∉ part.toList := by
  obtain ⟨piece, hpiece, rfl⟩ := List.mem_map.mp h
  rw [String.toList_ofList]
  exact fun hslash => (Text.mem_of_mem_pieces hpiece hslash).2 rfl

/-- The parts of two paths joined by a slash are those of both. -/
theorem parts_append (base name : String) :
    parts (base ++ "/" ++ name) = parts base ++ parts name := by
  rw [parts, parts, parts, Text.splitAt, Text.splitAt, Text.splitAt, ← List.map_append,
    ← Text.pieces_append]
  simp

/-- A name without a slash is no absolute path. -/
theorem isAbsolute_of_notMem {name : String} (h : '/' ∉ name.toList) : isAbsolute name = false := by
  unfold isAbsolute
  cases hname : name.toList with
  | nil => rfl
  | cons c cs =>
    have hc : c ≠ '/' := fun he => h (by simp [hname, he])
    simpa using hc

/-- A name below a path takes the place of an empty last part, or stands behind the last part. -/
theorem parts_join {base name : String} (hbase : base ≠ "") (hname : '/' ∉ name.toList) :
    ∃ init last, parts base = init ++ last ∧ (last = [] ∨ last = [""]) ∧ init ≠ [] ∧
      parts (join base name) = init ++ [name] := by
  have hempty : base.isEmpty = false := by simpa using hbase
  rw [join, isAbsolute_of_notMem hname]
  simp only [Bool.false_eq_true, if_false, hempty, Bool.false_or, beq_iff_eq]
  by_cases hslash : base.toList.getLast? = some '/'
  · obtain ⟨init, hinit⟩ := List.getLast?_eq_some_iff.mp hslash
    have hsplit : base = String.ofList init ++ "/" := by
      apply String.toList_injective
      simp [hinit]
    refine ⟨parts (String.ofList init), [""], ?_, .inr rfl, ?_, ?_⟩
    · have happend := parts_append (String.ofList init) ""
      rw [String.append_empty, ← hsplit] at happend
      exact happend
    · simp [parts, Text.splitAt, Text.pieces_ne_nil]
    · rw [if_pos hslash, hsplit, parts_append, parts_of_notMem hname]
  · refine ⟨parts base, [], by simp, .inl rfl, ?_, ?_⟩
    · simp [parts, Text.splitAt, Text.pieces_ne_nil]
    · rw [if_neg hslash, parts_append, parts_of_notMem hname]

/-- A name without a slash is joined behind a path. -/
theorem join_eq_append (base : String) {name : String} (hname : '/' ∉ name.toList) :
    ∃ rest, join base name = base ++ rest := by
  rw [join, isAbsolute_of_notMem hname]
  simp only [Bool.false_eq_true, if_false]
  split
  · exact ⟨name, rfl⟩
  · exact ⟨"/" ++ name, String.append_assoc ..⟩

/-- A path stays absolute or relative, whatever stands behind it. -/
theorem isAbsolute_append {base : String} (hbase : base ≠ "") (rest : String) :
    isAbsolute (base ++ rest) = isAbsolute base := by
  obtain ⟨c, cs, hcs⟩ := List.exists_cons_of_ne_nil
    (show base.toList ≠ [] by simpa using hbase)
  simp [isAbsolute, hcs]

/-- A path stays in place if it starts with a dot and has no other parts than dots and empty ones.
-/
theorem isHere_iff {path : String} :
    isHere path = true ↔
      (parts path).head? = some "." ∧ ∀ part ∈ parts path, part = "" ∨ part = "." := by
  rw [isHere, names, Bool.and_eq_true, beq_iff_eq, beq_iff_eq, List.filter_eq_nil_iff]
  refine and_congr_right fun _ => forall₂_congr fun part _ => ?_
  simp only [Bool.and_eq_true, bne_iff_ne, not_and_or, not_not]

/-- A name below a path that does not stay in place does not stay in place either. -/
theorem isHere_join {base name : String} (hbase : base ≠ "") (hname : '/' ∉ name.toList)
    (haway : isHere base = false) : isHere (join base name) = false := by
  obtain ⟨init, last, hparts, hlast, hinit, hjoin⟩ := parts_join hbase hname
  by_contra hhere
  rw [Bool.not_eq_false, isHere_iff, hjoin, List.head?_append_of_ne_nil _ hinit] at hhere
  have hbelow : isHere base = true := by
    rw [isHere_iff, hparts, List.head?_append_of_ne_nil _ hinit]
    refine ⟨hhere.1, fun part hpart => ?_⟩
    rcases List.mem_append.mp hpart with hpart | hpart
    · exact hhere.2 part (List.mem_append_left _ hpart)
    · rcases hlast with rfl | rfl
      · cases hpart
      · exact .inl (List.mem_singleton.mp hpart)
  rw [haway] at hbelow
  cases hbelow

/-- A name does not stay in place. -/
theorem IsName.isHere {name : String} (h : IsName name) : isHere name = false := by
  by_contra hhere
  rw [Bool.not_eq_false, isHere_iff, parts_of_notMem h.slash] at hhere
  exact (hhere.2 name (List.mem_singleton_self _)).elim h.nonempty h.here

end Path

namespace Workspace

variable {w : Workspace}

/-! ### Paths with a name behind them -/

/-- A path leads nowhere if there is nothing at its location. -/
theorem exists?_eq_false_iff {path : String} :
    w.exists? path = false ↔ ∀ l, w.locate path = .ok l → w.tree.get? l = none := by
  unfold exists? entry?
  cases w.locate path with
  | error fault => simp
  | ok l => simp

/-- A path leads to a file if its location holds one. -/
theorem isFile_iff {path : String} :
    w.isFile path = true ↔
      ∃ k entry, w.locate path = .ok k ∧ w.tree.get? k = some entry ∧ entry.isFile = true := by
  unfold isFile entry?
  cases w.locate path with
  | error fault => simp
  | ok k => simp [Option.any_eq_true]

private theorem refused?_append {path rest : String} (hne : path ≠ "")
    (h : refused? (path ++ rest) = none) : refused? path = none := by
  have hsize : (path ++ rest).utf8ByteSize = path.utf8ByteSize + rest.utf8ByteSize :=
    String.utf8ByteSize_append ..
  unfold refused? at h ⊢
  split at h
  · cases h
  · next hnul =>
    split at h
    · cases h
    · split at h
      · cases h
      · next hlong =>
        rw [if_neg (by simp only [String.toList_append, List.contains_append] at hnul; simp_all),
          if_neg hne, if_neg (by omega)]

/-- A path that can be looked up leads to where its parts lead. -/
theorem locate_eq_ok_iff {path : String} {l : Location} :
    w.locate path = .ok l ↔
      refused? path = none ∧ followAll w.tree (w.start path) (Path.parts path) = .ok l := by
  unfold locate
  cases refused? path <;> simp

/-- A path that leads somewhere is not empty. -/
theorem ne_empty_of_locate {path : String} {l : Location} (h : w.locate path = .ok l) :
    path ≠ "" := by
  rintro rfl
  have hrefused := (locate_eq_ok_iff.mp h).1
  simp [refused?] at hrefused

/-- Parts are followed in two portions, the second from where the first one leads. -/
theorem followAll_append (t : FileTree) (l : Location) (ps qs : List String) :
    followAll t l (ps ++ qs) = (followAll t l ps).bind fun k => followAll t k qs := by
  rw [followAll, List.foldlM_append]
  rfl

/-- A single part is followed by itself. -/
theorem followAll_singleton (t : FileTree) (l : Location) (part : String) :
    followAll t l [part] = follow t l part := by
  simp [followAll]

/-- One part of a path is followed out of a directory: it stays there, leads up, or leads to the
entry of its name. -/
theorem follow_cases {t : FileTree} {l k : Location} {part : String}
    (h : follow t l part = .ok k) :
    t.get? l = some .directory ∧
      ((part = "" ∨ part = ".") ∧ k = l ∨ part = ".." ∧ k = l.dropLast ∨
        part ≠ "" ∧ part ≠ "." ∧ part ≠ ".." ∧ k = l ++ [part] ∧ (t.get? k).isSome) := by
  unfold follow at h
  split at h
  · next hl =>
    refine ⟨hl, ?_⟩
    split_ifs at h with hstay hup _ hsome
    · cases h
      exact .inl ⟨by simpa using hstay, rfl⟩
    · cases h
      exact .inr (.inl ⟨hup, rfl⟩)
    · cases h
      simp only [Bool.or_eq_true, decide_eq_true_eq, not_or] at hstay
      exact .inr (.inr ⟨hstay.1, hstay.2, hup, rfl, hsome⟩)
  · cases h

/-- Only from a directory a part leads on. -/
theorem get?_of_follow {t : FileTree} {l k : Location} {part : String}
    (h : follow t l part = .ok k) : t.get? l = some .directory :=
  (follow_cases h).1

/-- A name leads to what stands under it in the directory. -/
theorem follow_name {t : FileTree} {l k : Location} {name : String} (hname : Path.IsName name)
    (h : follow t l name = .ok k) : k = l ++ [name] ∧ (t.get? k).isSome := by
  rcases (follow_cases h).2 with ⟨hstay, -⟩ | ⟨hup, -⟩ | ⟨-, -, -, hk, hsome⟩
  · exact absurd hstay (not_or.mpr ⟨hname.nonempty, hname.here⟩)
  · exact absurd hup hname.up
  · exact ⟨hk, hsome⟩

/-- Parts that stay in place lead to where they start, which is a directory if there are any. -/
theorem followAll_stay {t : FileTree} {l k : Location} {parts : List String}
    (hparts : ∀ part ∈ parts, part = "" ∨ part = ".") (h : followAll t l parts = .ok k) :
    k = l ∧ (parts ≠ [] → t.get? l = some .directory) := by
  induction parts with
  | nil => exact ⟨(Except.ok.inj h).symm, fun hne => (hne rfl).elim⟩
  | cons part parts ih =>
    rw [← List.singleton_append, followAll_append, followAll_singleton] at h
    cases hm : follow t l part with
    | error fault => rw [hm] at h; cases h
    | ok m =>
      obtain rfl : m = l := by
        have hstay := hparts part List.mem_cons_self
        rcases (follow_cases hm).2 with ⟨-, hml⟩ | ⟨rfl, -⟩ | ⟨hempty, hdot, -⟩
        · exact hml
        · exact absurd hstay (by decide)
        · exact absurd hstay (not_or.mpr ⟨hempty, hdot⟩)
      rw [hm] at h
      exact ⟨(ih (fun p hp => hparts p (List.mem_cons_of_mem part hp)) h).1,
        fun _ => get?_of_follow hm⟩

/-- Following parts of a path from a location of names leads to one. -/
theorem named_followAll {t : FileTree} {l k : Location} {parts : List String}
    (hl : ∀ name ∈ l, Path.IsName name) (hparts : ∀ part ∈ parts, '/' ∉ part.toList)
    (h : followAll t l parts = .ok k) : ∀ name ∈ k, Path.IsName name := by
  induction parts generalizing l with
  | nil =>
    cases h
    exact hl
  | cons part parts ih =>
    rw [← List.singleton_append, followAll_append, followAll_singleton] at h
    cases hm : follow t l part with
    | error fault => rw [hm] at h; cases h
    | ok m =>
      rw [hm] at h
      refine ih ?_ (fun p hp => hparts p (List.mem_cons_of_mem part hp)) h
      rcases (follow_cases hm).2 with ⟨-, rfl⟩ | ⟨-, rfl⟩ | ⟨hempty, hstay, hup, rfl, -⟩
      · exact hl
      · exact fun name hname => hl name (List.dropLast_subset _ hname)
      · intro name hname
        rcases List.mem_append.mp hname with hname | hname
        · exact hl name hname
        · obtain rfl := List.mem_singleton.mp hname
          exact ⟨hempty, hstay, hup, hparts name List.mem_cons_self⟩

/-- From what is no directory no part leads on. -/
theorem follow_of_not_directory {t : FileTree} {l : Location} (h : t.get? l ≠ some .directory)
    (part : String) : follow t l part = .error .notDirectory := by
  unfold follow
  split
  · next hl => exact absurd hl h
  · rfl

/-- A path with a name behind it leads through the place that the path leads to. -/
theorem locate_join {path name : String} {l : Location} (hne : path ≠ "")
    (hname : '/' ∉ name.toList) (h : w.locate (Path.join path name) = .ok l) :
    ∃ k, w.locate path = .ok k ∧ follow w.tree k name = .ok l := by
  obtain ⟨init, last, hparts, hlast, -, hjoin⟩ := Path.parts_join hne hname
  obtain ⟨rest, hrest⟩ := Path.join_eq_append path hname
  obtain ⟨hrefused, hfollow⟩ := locate_eq_ok_iff.mp h
  have hstart : w.start (Path.join path name) = w.start path := by
    rw [start, start, hrest, Path.isAbsolute_append hne]
  rw [hstart, hjoin, followAll_append] at hfollow
  cases hinit : followAll w.tree (w.start path) init with
  | error fault => rw [hinit] at hfollow; cases hfollow
  | ok k =>
    rw [hinit] at hfollow
    have hk : follow w.tree k name = .ok l := (followAll_singleton ..).symm.trans hfollow
    refine ⟨k, locate_eq_ok_iff.mpr ⟨refused?_append hne (hrest ▸ hrefused), ?_⟩, hk⟩
    rw [hparts, followAll_append, hinit]
    rcases hlast with rfl | rfl
    · rfl
    · -- an empty part stays in the directory that the name is looked for in
      have hdirectory := get?_of_follow hk
      simp [Except.bind, followAll, follow, hdirectory]

/-- A path that stays in place leads to the working directory. -/
theorem locate_of_isHere {path : String} {l : Location} (hpath : Path.isHere path = true)
    (h : w.locate path = .ok l) : l = w.here ∧ w.tree.get? l = some .directory := by
  obtain ⟨hhead, hparts⟩ := Path.isHere_iff.mp hpath
  obtain ⟨-, hfollow⟩ := locate_eq_ok_iff.mp h
  have habsolute : Path.isAbsolute path = false := by
    by_contra hslash
    rw [Bool.not_eq_false, Path.isAbsolute, beq_iff_eq] at hslash
    obtain ⟨cs, hcs⟩ := List.head?_eq_some_iff.mp hslash
    rw [Path.parts, Text.splitAt, hcs, Text.pieces_cons_self] at hhead
    simp at hhead
  rw [start, habsolute, if_neg (by simp)] at hfollow
  obtain ⟨rfl, hdirectory⟩ := followAll_stay hparts hfollow
  refine ⟨rfl, hdirectory fun hnil => ?_⟩
  rw [hnil] at hhead
  cases hhead

/-- A name below a path is followed from the place that the path leads to. -/
theorem follow_of_locate_below {path name : String} {l k : Location} (hname : Path.IsName name)
    (hpath : w.locate path = .ok l) (h : w.locate (Walk.below path name) = .ok k) :
    follow w.tree l name = .ok k := by
  unfold Walk.below at h
  split at h
  · next hhere =>
    obtain ⟨rfl, -⟩ := locate_of_isHere hhere hpath
    obtain ⟨-, hfollow⟩ := locate_eq_ok_iff.mp h
    rwa [start, Path.isAbsolute_of_notMem hname.slash, if_neg (by simp),
      Path.parts_of_notMem hname.slash, followAll_singleton] at hfollow
  · obtain ⟨m, hm, hfollow⟩ := locate_join (ne_empty_of_locate hpath) hname.slash h
    rw [hpath] at hm
    cases hm
    exact hfollow

/-- `Gone w path`: the path leads nowhere, and neither does any with more names behind it. -/
structure Gone (w : Workspace) (path : String) : Prop where
  nonempty : path ≠ ""
  away : Path.isHere path = false
  missing : w.exists? path = false

/-- A path below one that leads nowhere leads nowhere. -/
theorem Gone.below {path name : String} (h : w.Gone path) (hname : '/' ∉ name.toList) :
    w.Gone (Walk.below path name) := by
  rw [Walk.below, if_neg (by simp [h.away])]
  obtain ⟨rest, hrest⟩ := Path.join_eq_append path hname
  refine ⟨?_, Path.isHere_join h.nonempty hname h.away, exists?_eq_false_iff.mpr fun l hl => ?_⟩
  · rw [hrest]
    simp [h.nonempty]
  · obtain ⟨k, hk, hfollow⟩ := locate_join h.nonempty hname hl
    have hnone := exists?_eq_false_iff.mp h.missing k hk
    rw [get?_of_follow hfollow] at hnone
    cases hnone

/-! ### An empty file -/

/-- `Emptied l w w'`: the workspace `w'` has an empty file at `l`, where `w` has a file or nothing,
and is the same everywhere else. -/
structure Emptied (l : Location) (w w' : Workspace) : Prop where
  here : w'.here = w.here
  named : ∀ name ∈ l, Path.IsName name
  file : w'.tree.get? l = some (.file [])
  before : w.tree.get? l = none ∨ ∃ bytes, w.tree.get? l = some (.file bytes)
  other : ∀ k ≠ l, w'.tree.get? k = w.tree.get? k
  locations : w'.tree.entries.map (·.1) =
    w.tree.entries.map (·.1) ++ if (w.tree.get? l).isSome then [] else [l]

/-- Where a path leads in two workspaces of which the second one has an empty file at `l`. -/
inductive Leads (l : Location) : Except FileFault Location → Except FileFault Location → Prop where
  | same (k : Location) : Leads l (.ok k) (.ok k)
  | nowhere (fault fault' : FileFault) : Leads l (.error fault) (.error fault')
  | opened (fault : FileFault) : Leads l (.error fault) (.ok l)

namespace Emptied

variable {l : Location} {w' : Workspace}

private theorem not_directory (h : Emptied l w w') : w.tree.get? l ≠ some .directory := by
  rcases h.before with hl | ⟨bytes, hl⟩ <;> rw [hl] <;> simp

/-- The new file is no directory. -/
theorem not_directory' (h : Emptied l w w') : w'.tree.get? l ≠ some .directory := by
  rw [h.file]
  simp

/-- The directories are the same as before. -/
theorem directory_iff (h : Emptied l w w') (k : Location) :
    w'.tree.get? k = some .directory ↔ w.tree.get? k = some .directory := by
  by_cases hk : k = l
  · subst hk
    exact iff_of_false h.not_directory' h.not_directory
  · rw [h.other k hk]

private theorem isSome_get? (h : Emptied l w w') {k : Location} (hk : (w.tree.get? k).isSome) :
    (w'.tree.get? k).isSome := by
  by_cases he : k = l
  · rw [he, h.file]
    rfl
  · rwa [h.other k he]

private theorem leads_follow (h : Emptied l w w') (k : Location) (part : String) :
    Leads l (follow w.tree k part) (follow w'.tree k part) := by
  by_cases hk : w.tree.get? k = some .directory
  · have hk' := (h.directory_iff k).mpr hk
    simp only [follow, hk, hk']
    split_ifs with _ _ _ hsome hsome' hsome'
    · exact .same k
    · exact .same _
    · exact .nowhere _ _
    · exact .same _
    · exact absurd (h.isSome_get? hsome) hsome'
    · -- the second workspace alone has something there
      have hl : k ++ [part] = l := by
        by_contra hne
        rw [h.other _ hne] at hsome'
        exact hsome hsome'
      rw [hl]
      exact .opened _
    · exact .nowhere _ _
  · have hk' := fun hd => hk ((h.directory_iff k).mp hd)
    rw [follow_of_not_directory hk, follow_of_not_directory hk']
    exact .nowhere _ _

private theorem leads_followAll (h : Emptied l w w') (parts : List String) (k : Location) :
    Leads l (followAll w.tree k parts) (followAll w'.tree k parts) := by
  induction parts generalizing k with
  | nil => exact .same k
  | cons part parts ih =>
    rw [← List.singleton_append, followAll_append, followAll_append, followAll_singleton,
      followAll_singleton]
    have hstep := h.leads_follow k part
    generalize follow w.tree k part = x at hstep
    generalize follow w'.tree k part = x' at hstep
    cases hstep with
    | same m => exact ih m
    | nowhere fault fault' => exact .nowhere _ _
    | opened fault =>
      cases parts with
      | nil => exact .opened fault
      | cons next parts =>
        -- nothing is below a file
        rw [Except.bind, Except.bind, ← List.singleton_append, followAll_append,
          followAll_singleton, follow_of_not_directory h.not_directory']
        exact .nowhere _ _

/-- A path leads where it led before, or to the new file. -/
theorem leads_locate (h : Emptied l w w') (path : String) :
    Leads l (w.locate path) (w'.locate path) := by
  unfold locate
  cases refused? path with
  | some fault => exact .nowhere _ _
  | none =>
    rw [start, start, h.here]
    exact h.leads_followAll _ _

/-- A path that does not lead to the new file led to the same place before. -/
theorem locate_of_ne (h : Emptied l w w') {path : String} {k : Location}
    (hpath : w'.locate path = .ok k) (hk : k ≠ l) : w.locate path = .ok k := by
  have hleads := h.leads_locate path
  rw [hpath] at hleads
  generalize w.locate path = x at hleads
  cases hleads with
  | same => rfl
  | opened => exact absurd rfl hk

/-- A path that led somewhere still leads there. -/
theorem locate_of_ok (h : Emptied l w w') {path : String} {k : Location}
    (hpath : w.locate path = .ok k) : w'.locate path = .ok k := by
  have hleads := h.leads_locate path
  rw [hpath] at hleads
  generalize w'.locate path = x at hleads
  cases hleads
  rfl

/-- What existed still exists. -/
theorem exists?_of_exists? (h : Emptied l w w') {path : String} (hpath : w.exists? path = true) :
    w'.exists? path = true := by
  by_contra hmissing
  rw [Bool.not_eq_true, exists?_eq_false_iff] at hmissing
  unfold exists? entry? at hpath
  split at hpath
  · next k hk =>
    have hsome := h.isSome_get? hpath
    rw [hmissing k (h.locate_of_ok hk)] at hsome
    cases hsome
  · cases hpath

/-- A path that leads anywhere but to the empty file leads to the same entry. -/
theorem entry?_eq (h : Emptied l w w') {path : String} (hpath : w'.locate path ≠ .ok l) :
    w'.entry? path = w.entry? path := by
  unfold entry?
  have hleads := h.leads_locate path
  generalize w.locate path = x at hleads
  generalize w'.locate path = x' at hleads hpath
  cases hleads with
  | same k => exact h.other k fun hk => hpath (congrArg Except.ok hk)
  | nowhere => rfl
  | opened => exact absurd rfl hpath

/-- A path leads to a directory if it did before. -/
theorem isDirectory_eq (h : Emptied l w w') (path : String) :
    w'.isDirectory path = w.isDirectory path := by
  by_cases hpath : w'.locate path = .ok l
  · have hno : w'.isDirectory path = false := by simp [isDirectory, entry?, hpath, h.file]
    rw [hno]
    unfold isDirectory entry?
    have hleads := h.leads_locate path
    rw [hpath] at hleads
    generalize w.locate path = x at hleads
    cases hleads with
    | same => simpa using (beq_eq_false_iff_ne.mpr h.not_directory).symm
    | opened => rfl
  · rw [isDirectory, isDirectory, h.entry?_eq hpath]

/-- A path that does not lead to the new file leads to a file exactly if it did before. -/
theorem isFile_eq (h : Emptied l w w') {path : String} (hpath : w'.locate path ≠ .ok l) :
    w'.isFile path = w.isFile path := by
  rw [isFile, isFile, h.entry?_eq hpath]

/-- A file stays a file. -/
theorem isFile_of_isFile (h : Emptied l w w') {path : String} (hpath : w.isFile path = true) :
    w'.isFile path = true := by
  obtain ⟨k, entry, hk, hentry, hfile⟩ := isFile_iff.mp hpath
  by_cases hkl : k = l
  · exact isFile_iff.mpr ⟨l, _, hkl ▸ h.locate_of_ok hk, h.file, rfl⟩
  · exact isFile_iff.mpr ⟨k, entry, h.locate_of_ok hk, (h.other k hkl).trans hentry, hfile⟩

/-- A path that leads to another file reads the same. -/
theorem read_eq (h : Emptied l w w') {path : String} {k : Location}
    (hpath : w'.locate path = .ok k) (hk : k ≠ l) : w'.read path = w.read path := by
  simp only [read, hpath, h.locate_of_ne hpath hk, h.other k hk]

end Emptied

end Workspace

namespace FileTree

variable {t : FileTree} {l : Location}

/-- An entry that is set stands at its location, and the others stay. -/
theorem get?_set (hl : l ≠ []) (e : Entry) (k : Location) :
    (t.set l e).get? k = if k = l then some e else t.get? k := by
  unfold get? set
  by_cases hk : k = []
  · rw [if_pos hk, if_pos hk, if_neg (hk ▸ hl.symm)]
  · rw [if_neg hk, if_neg hk, apply_ite FileTree.entries]
    exact Keyed.lookup_set t.entries l k e

/-- Setting an entry adds a location behind the others, unless it is among them. -/
theorem locations_set (t : FileTree) (l : Location) (e : Entry) :
    (t.set l e).entries.map (·.1) = t.entries.map (·.1) ++
      if (t.entries.lookup l).isSome then [] else [l] := by
  unfold set
  split
  · rw [List.append_nil, List.map_map]
    refine List.map_congr_left fun entry _ => ?_
    simp only [Function.comp_apply]
    split <;> rfl
  · simp

end FileTree

namespace Workspace

variable {w w' : Workspace} {path : String} {l : Location}

/-- A file is opened for writing by the last part of a path, which is a name, in the directory that
the other parts lead to. -/
theorem locateForWriting_eq_ok (h : w.locateForWriting path = .ok l) :
    refused? path = none ∧ ∃ parts directory name, Path.parts path = parts ++ [name] ∧
      followAll w.tree (w.start path) parts = .ok directory ∧
      w.tree.get? directory = some .directory ∧ Path.IsName name ∧
      name.utf8ByteSize ≤ nameLimit ∧ l = directory ++ [name] ∧
      w.tree.get? l ≠ some .directory := by
  unfold locateForWriting at h
  split at h
  · cases h
  · next hrefused =>
    dsimp only at h
    generalize hnamed : ((Path.parts path).reverse.dropWhile (· = "")).reverse = named at h
    split at h
    · cases h
    · next name hname =>
      cases hfollow : followAll w.tree (w.start path) named.dropLast with
      | error fault => rw [hfollow] at h; cases h
      | ok directory =>
        rw [hfollow] at h
        simp only [bind, Except.bind] at h
        split at h
        · next hdirectory =>
          split_ifs at h with hdots hlong htaken
          cases h
          simp only [Bool.or_eq_true, decide_eq_true_eq, not_or, Nat.not_lt] at hdots hlong
          have hprefix : named <+: Path.parts path := by
            rw [← hnamed, ← List.reverse_suffix, List.reverse_reverse]
            exact List.dropWhile_suffix _
          have hparts : Path.parts path = named.dropLast ++ [name] := by
            rw [← hprefix.eq_of_length_le hdots.1.1, List.dropLast_append_getLast? name hname]
          have hslash : '/' ∉ name.toList :=
            Path.slash_of_mem_parts
              (hparts ▸ List.mem_append_right _ (List.mem_singleton_self name))
          have hempty : name ≠ "" := by
            have hkept := List.head?_dropWhile_not (fun part : String => decide (part = ""))
              (Path.parts path).reverse
            rw [← hnamed, List.getLast?_reverse] at hname
            rw [hname] at hkept
            exact of_decide_eq_false hkept
          exact ⟨hrefused, named.dropLast, directory, name, hparts, hfollow, hdirectory,
            ⟨hempty, hdots.1.2, hdots.2, hslash⟩, hlong, rfl, htaken⟩
        · cases h

private theorem named_of_locateForWriting {w : PlacedWorkspace}
    (h : w.locateForWriting path = .ok l) : ∀ name ∈ l, Path.IsName name := by
  obtain ⟨-, parts, directory, last, hparts, hfollow, -, hlast, -, rfl, -⟩ :=
    locateForWriting_eq_ok h
  have hstart : ∀ name ∈ w.start path, Path.IsName name := by
    rw [start]
    split
    · exact fun name hname => (List.not_mem_nil hname).elim
    · exact w.named
  intro name hname
  rcases List.mem_append.mp hname with hname | hname
  · exact named_followAll hstart
      (fun part hpart => Path.slash_of_mem_parts (hparts ▸ List.mem_append_left _ hpart)) hfollow
      name hname
  · rw [List.mem_singleton.mp hname]
    exact hlast

/-- What opening a file for writing leaves, where no device is in its place. -/
theorem emptied_of_create {w : PlacedWorkspace}
    (h : w.create path = .ok (w', l)) (hdevice : w.tree.get? l ≠ some .full) : Emptied l w w' := by
  unfold create at h
  split at h
  · cases h
  · next hl =>
    split at h
    · next hfull =>
      cases h
      exact absurd hfull hdevice
    · cases h
    · next hfull hlocked =>
      cases h
      have hnamed := named_of_locateForWriting hl
      obtain ⟨-, -, directory, name, -, -, -, -, -, hlast, hdirectory⟩ :=
        locateForWriting_eq_ok hl
      have hne : l ≠ [] := by simp [hlast]
      refine ⟨rfl, hnamed, by rw [FileTree.get?_set hne, if_pos rfl], ?_, fun m hm => ?_, ?_⟩
      · cases hentry : w.tree.get? l with
        | none => exact .inl rfl
        | some entry =>
          cases entry with
          | file bytes => exact .inr ⟨bytes, rfl⟩
          | directory => exact absurd hentry hdirectory
          | full => exact absurd hentry hdevice
          | locked => exact absurd hentry hlocked
      · rw [FileTree.get?_set hne, if_neg hm]
      · rw [FileTree.locations_set, FileTree.get?, if_neg hne]

/-- A file is opened at the location where its path opens files for writing. -/
theorem locateForWriting_of_create (h : w.create path = .ok (w', l)) :
    w.locateForWriting path = .ok l := by
  unfold create at h
  split at h
  · cases h
  · split at h <;> cases h <;> assumption

/-- Where a file was opened for writing, the path leads to it. -/
theorem Emptied.locate_of_create (hemptied : Emptied l w w') (h : w.create path = .ok (w', l)) :
    w'.locate path = .ok l := by
  obtain ⟨hrefused, parts, directory, name, hparts, hfollow, hdirectory, hname, hlimit, hlast, -⟩ :=
    locateForWriting_eq_ok (locateForWriting_of_create h)
  have hfollow' : followAll w'.tree (w.start path) parts = .ok directory := by
    have hleads := hemptied.leads_followAll parts (w.start path)
    rw [hfollow] at hleads
    generalize followAll w'.tree (w.start path) parts = x' at hleads
    cases hleads
    rfl
  refine locate_eq_ok_iff.mpr ⟨hrefused, ?_⟩
  rw [start, hemptied.here, ← start, hparts, followAll_append, hfollow', Except.bind,
    followAll_singleton, follow, (hemptied.directory_iff directory).mpr hdirectory]
  simp [hname.nonempty, hname.here, hname.up, Nat.not_lt.mpr hlimit, ← hlast, hemptied.file]

/-- The new file does not stand at the root. -/
theorem Emptied.ne_nil (h : Emptied l w w') : l ≠ [] := by
  rintro rfl
  exact h.not_directory rfl

/-- Writing into the file that was opened changes its contents only. -/
theorem Emptied.sameBut_set (h : Emptied l w w') (bytes : List UInt8) :
    w'.SameBut [l] { w' with tree := w'.tree.set l (.file bytes) } := by
  refine ⟨rfl, ?_, fun k => ?_⟩
  · have hsome : (w'.tree.entries.lookup l).isSome = true := by
      have hfile := h.file
      rw [FileTree.get?, if_neg h.ne_nil] at hfile
      rw [hfile]
      rfl
    rw [FileTree.locations_set, if_pos hsome, List.append_nil]
  · rw [FileTree.get?_set h.ne_nil]
    split
    · next hk =>
      refine .inr ⟨List.mem_singleton.mpr hk, [], bytes, ?_, rfl⟩
      rw [hk, h.file]
    · exact .inl rfl

end Workspace

end PromptOutline
