import Mathlib.Data.List.Forall2
import PromptOutline.Proofs.EscapedWalk
import PromptOutline.Proofs.StarRuns

/-!
# Names looked up as patterns

A name without wildcard characters can be looked up by itself and as a pattern, along the same
search paths. Both ways lead to the same file, and where the name is not found the pattern stands
for nothing. The two ways differ where the pattern is not walked as the path is followed: the walk
does not look at hidden names, and it has no path to put an empty part behind where it starts.
-/

namespace PromptOutline

/-! ### Parts and steps -/

namespace Text

private theorem getLast?_pieces {sep c : Char} (h : c ≠ sep) (cs : List Char) :
    (pieces sep (cs ++ [c])).getLast? ≠ some [] := by
  obtain ⟨init, last, -, hpieces⟩ :=
    pieces_append_of_notMem (show sep ∉ [c] by simpa using h.symm) cs
  simp [hpieces]

private theorem exists_mem_pieces {sep c : Char} {cs : List Char} (hc : c ∈ cs) (hne : c ≠ sep) :
    ∃ piece ∈ pieces sep cs, c ∈ piece := by
  induction cs using pieces_induction sep with
  | single cs hcs => exact ⟨cs, by simp [pieces_of_notMem hcs], hc⟩
  | cut first cs hfirst ih =>
    rw [pieces_piece_append hfirst]
    simp only [List.mem_append, List.mem_cons, hne, false_or] at hc
    rcases hc with hc | hc
    · exact ⟨first, List.mem_cons_self, hc⟩
    · obtain ⟨piece, hpiece, hin⟩ := ih hc
      exact ⟨piece, List.mem_cons_of_mem first hpiece, hin⟩

private theorem exists_trailing (c : Char) (cs : List Char) :
    ∃ n, cs = dropTrailing c cs ++ List.replicate n c := by
  induction cs using List.reverseRecOn with
  | nil => exact ⟨0, rfl⟩
  | append_singleton cs d ih =>
    obtain ⟨n, hn⟩ := ih
    rw [dropTrailing_concat]
    split
    · next hd =>
      refine ⟨n + 1, ?_⟩
      rw [List.replicate_succ', ← List.append_assoc, ← hn, hd]
    · exact ⟨0, (List.append_nil _).symm⟩

private theorem dropTrailing_append_replicate (c : Char) (cs : List Char) (n : Nat) :
    dropTrailing c (cs ++ List.replicate n c) = dropTrailing c cs := by
  induction n with
  | zero => rw [List.replicate_zero, List.append_nil]
  | succ n ih =>
    rw [List.replicate_succ', ← List.append_assoc, dropTrailing_concat, if_pos rfl, ih]

end Text

namespace Path

variable {path : String}

private theorem parts_ne_nil (path : String) : parts path ≠ [] := by
  simp [parts, Text.splitAt, Text.pieces_ne_nil]

/-- Only the empty path and one that starts at the root have an empty first part. -/
theorem isAbsolute_of_head?_parts (hne : path ≠ "") (h : (parts path).head? = some "") :
    isAbsolute path = true := by
  obtain ⟨c, cs, hcs⟩ := List.exists_cons_of_ne_nil (show path.toList ≠ [] by simpa using hne)
  by_cases hc : c = '/'
  · simp [isAbsolute, hcs, hc]
  · obtain ⟨piece, others, hpieces⟩ := List.exists_cons_of_ne_nil (Text.pieces_ne_nil '/' cs)
    rw [parts, Text.splitAt, hcs, Text.pieces_cons_of_ne hc hpieces] at h
    simp at h

private theorem parts_of_getLast? (h : path.toList.getLast? = some '/') :
    ∃ init, parts path = init ++ [""] := by
  obtain ⟨init, hinit⟩ := List.getLast?_eq_some_iff.mp h
  have hsplit : path = String.ofList init ++ "/" ++ "" := by
    apply String.toList_injective
    simp [hinit]
  refine ⟨parts (String.ofList init), ?_⟩
  rw [hsplit, parts_append]
  rfl

/-- The bytes of a path are those of its parts and of the slashes between them. -/
theorem extent_parts (path : String) : extent (parts path) = path.utf8ByteSize + 1 := by
  obtain ⟨cs, rfl⟩ : ∃ cs, path = String.ofList cs := ⟨path.toList, String.ofList_toList.symm⟩
  induction cs using Text.pieces_induction '/' with
  | single cs hcs =>
    rw [parts_of_notMem (by simpa using hcs)]
    rfl
  | cut piece cs hpiece ih =>
    have hsplit : String.ofList (piece ++ '/' :: cs) =
        String.ofList piece ++ "/" ++ String.ofList cs := by
      apply String.toList_injective
      simp
    have hslash : "/".utf8ByteSize = 1 := rfl
    rw [hsplit, parts_append, parts_of_notMem (by simpa using hpiece), List.singleton_append,
      extent, ih, String.utf8ByteSize_append, String.utf8ByteSize_append, hslash]
    omega

/-- The steps of a path that does not end in a slash are its parts, behind the slash for the
root. -/
theorem parts_eq_steps (hne : path ≠ "") (hlast : path.toList.getLast? ≠ some '/') :
    parts path = (if isAbsolute path then [""] else []) ++ Walk.steps path := by
  have hcomponents {cs : List Char} (hcs : cs ≠ []) (hlast : cs.getLast? ≠ some '/') :
      Walk.components cs = Text.pieces '/' cs := by
    rw [← List.dropLast_append_getLast hcs] at hlast ⊢
    rw [List.getLast?_concat] at hlast
    exact if_neg (Text.getLast?_pieces (by simpa using hlast) _)
  obtain ⟨c, cs, hpath⟩ := List.exists_cons_of_ne_nil (show path.toList ≠ [] by simpa using hne)
  rw [parts, Text.splitAt, Walk.steps, isAbsolute]
  rw [hpath] at hlast ⊢
  by_cases hc : c = '/'
  · subst hc
    have hcs : cs ≠ [] := by
      rintro rfl
      exact hlast rfl
    rw [List.getLast?_cons_of_ne_nil hcs] at hlast
    rw [Text.pieces_cons_self, Walk.belowRoot, hcomponents hcs hlast]
    rfl
  · have hbelow : Walk.belowRoot (c :: cs) = c :: cs := by simp [Walk.belowRoot, hc]
    rw [hbelow, hcomponents (List.cons_ne_nil c cs) hlast]
    simp [hc]

private theorem start_toList (path : String) :
    Walk.start path.toList = if isAbsolute path then "/" else "." := by
  unfold isAbsolute
  cases path.toList with
  | nil => rfl
  | cons c cs => by_cases hc : c = '/' <;> simp [Walk.start, hc]

end Path

/-! ### Paths and their escaped texts -/

namespace Path

/-- A path that the walk of its escaped text can follow: no hidden name has a wildcard character,
and no empty part stands right behind the dots that the path starts with. -/
structure Walkable (path : String) : Prop where
  visible : ∀ part ∈ parts path, FileTree.isHidden part = true → Glob.Plain part
  start : (parts path).head? = some "." → ((parts path).dropWhile (· = ".")).head? ≠ some ""

end Path

namespace Workspace

variable {w : Workspace} {path : String} {k l : Location}

private theorem isFile_congr {path' : String} (h : w.locate path = w.locate path') :
    w.isFile path = w.isFile path' := by
  rw [isFile, isFile, entry?, entry?, h]

/-- Parts that lead somewhere are names of the tree, and hold nothing that names do not. -/
theorem nul_of_followAll {w : SoundWorkspace} {parts : List String}
    (h : followAll w.tree l parts = .ok k) : ∀ part ∈ parts, '\x00' ∉ part.toList := by
  induction parts generalizing l with
  | nil => simp
  | cons part parts ih =>
    obtain ⟨m, hm, hall⟩ := followAll_cons.mp h
    refine List.forall_mem_cons.mpr ⟨?_, ih hall⟩
    rcases (follow_cases hm).2 with ⟨rfl | rfl, -⟩ | ⟨rfl, -⟩ | ⟨-, -, -, rfl, hsome⟩
    · decide
    · decide
    · decide
    · exact (w.sound.named _ (FileTree.mem_locations_of_get? (by simp) hsome) part (by simp)).2

private theorem locate_root (w : Workspace) : w.locate "/" = .ok [] := by
  rw [locate_eq_ok_iff, start, show Path.isAbsolute "/" = true by decide,
    show Path.parts "/" = ["", ""] by decide]
  exact ⟨by decide, rfl⟩

/-- A path leads where its steps lead from the start of its walk. -/
theorem followAll_parts (hne : path ≠ "") (hlast : path.toList.getLast? ≠ some '/') :
    followAll w.tree (w.start path) (Path.parts path) = .ok k ↔
      ∃ l, w.locate (Walk.start path.toList) = .ok l ∧
        followAll w.tree l (Walk.steps path) = .ok k := by
  have hparts := Path.parts_eq_steps hne hlast
  rw [Path.start_toList, start]
  by_cases habsolute : Path.isAbsolute path = true
  · rw [if_pos habsolute] at hparts
    rw [if_pos habsolute, if_pos habsolute, hparts, List.singleton_append, followAll_cons]
    rw [locate_root]
    simp [follow, FileTree.get?]
  · rw [if_neg habsolute, List.nil_append] at hparts
    rw [if_neg habsolute, if_neg habsolute, ← hparts]
    constructor
    · intro h
      refine ⟨w.here, locate_here ?_, h⟩
      obtain ⟨part, parts, hcons⟩ := List.exists_cons_of_ne_nil (Path.parts_ne_nil path)
      rw [hcons, followAll_cons] at h
      obtain ⟨m, hm, -⟩ := h
      exact get?_of_follow hm
    · rintro ⟨l, hl, h⟩
      rwa [(locate_of_isHere (by decide) hl).1] at h

private theorem nul_of_refused? (h : refused? path = none) : '\x00' ∉ path.toList := by
  intro hnul
  rw [refused?, if_pos (by simpa using hnul)] at h
  cases h

private theorem utf8ByteSize_of_refused? (h : refused? path = none) :
    path.utf8ByteSize < pathLimit := by
  by_contra hlong
  unfold refused? at h
  split_ifs at h with _ _ hsize
  exact hlong (by omega)

private theorem refused?_eq_none (hne : path ≠ "") (hnul : '\x00' ∉ path.toList)
    (hsize : path.utf8ByteSize < pathLimit) : refused? path = none := by
  rw [refused?, if_neg (by simpa using hnul), if_neg hne, if_neg (by omega)]

/-- The steps of a path can be put behind the start of its walk. -/
theorem room_steps (hrefused : refused? path = none) (hlast : path.toList.getLast? ≠ some '/')
    (hwalkable : Path.Walkable path) : Walk.Room (Walk.start path.toList) (Walk.steps path) := by
  have hne : path ≠ "" := by
    rintro rfl
    simp [refused?] at hrefused
  have hparts := Path.parts_eq_steps hne hlast
  have hmem : ∀ part ∈ Walk.steps path, part ∈ Path.parts path := fun part hpart =>
    hparts ▸ List.mem_append_right _ hpart
  have hextent := Path.extent_parts path
  have hsize := utf8ByteSize_of_refused? hrefused
  have hnul : ∀ part ∈ Walk.steps path, '\x00' ∉ part.toList := by
    intro part hpart hin
    obtain ⟨piece, hpiece, rfl⟩ := List.mem_map.mp (hmem part hpart)
    rw [String.toList_ofList] at hin
    exact nul_of_refused? hrefused (Text.mem_of_mem_pieces hpiece hin).1
  have hslash : ∀ part ∈ Walk.steps path, '/' ∉ part.toList := fun part hpart =>
    Path.slash_of_mem_parts (hmem part hpart)
  rw [Path.start_toList]
  by_cases habsolute : Path.isAbsolute path = true
  · rw [if_pos habsolute] at hparts ⊢
    refine ⟨by decide, fun hhere => absurd hhere (by decide), hslash, ⟨by decide, hnul⟩, ?_⟩
    rw [hparts, Path.extent_append] at hextent
    have hempty : Path.extent [""] = 1 := rfl
    have hroot : (Walk.below "/" "").utf8ByteSize = 1 := rfl
    omega
  · rw [if_neg habsolute, List.nil_append] at hparts
    rw [if_neg habsolute]
    refine ⟨by decide, fun _ => ⟨rfl, ?_⟩, hslash, ⟨by decide, hnul⟩, ?_⟩
    · rw [← hparts]
      obtain ⟨part, parts, hcons⟩ := List.exists_cons_of_ne_nil (Path.parts_ne_nil path)
      by_cases hdot : part = "."
      · exact hwalkable.start (by rw [hcons, hdot, List.head?_cons])
      · rw [hcons, List.dropWhile_cons_of_neg (by simpa using hdot), List.head?_cons]
        rintro hempty
        refine habsolute (Path.isAbsolute_of_head?_parts hne ?_)
        rw [hcons, List.head?_cons, hempty]
    · rw [← hparts, hextent]
      have hhere : (Walk.below "." "").utf8ByteSize = 0 := rfl
      omega

/-- The escaped text of the path of a file stands for one path, which leads to that file. -/
theorem expand_escape_of_isFile {w : SoundWorkspace} (hfile : w.isFile path = true)
    (hwalkable : Path.Walkable path) : ∃ found,
      Walk.expand w (Glob.escape path.toList) = .ok [found] ∧ w.locate found = w.locate path := by
  obtain ⟨k, entry, hpath, hentry, hisFile⟩ := isFile_iff.mp hfile
  obtain ⟨hrefused, hfollow⟩ := locate_eq_ok_iff.mp hpath
  have hlast : path.toList.getLast? ≠ some '/' := by
    intro hslash
    obtain ⟨init, hparts⟩ := Path.parts_of_getLast? hslash
    rw [hparts, followAll_append] at hfollow
    cases hm : followAll w.tree (w.start path) init with
    | error fault => rw [hm] at hfollow; cases hfollow
    | ok m =>
      rw [hm] at hfollow
      obtain ⟨rfl, hdirectory⟩ := followAll_stay (by simp) hfollow
      rw [hdirectory (List.cons_ne_nil _ _)] at hentry
      cases hentry
      cases hisFile
  have hne := ne_empty_of_locate hpath
  obtain ⟨l, hl, hsteps⟩ := (followAll_parts hne hlast).mp hfollow
  obtain ⟨found, hpaths, hfound⟩ := paths_of_followAll (room_steps hrefused hlast hwalkable) hl
    hsteps fun part hpart => hwalkable.visible part <|
      Path.parts_eq_steps hne hlast ▸ List.mem_append_right _ hpart
  have hlocate : w.locate found = w.locate path := hfound.trans hpath.symm
  refine ⟨found, ?_, hlocate⟩
  rw [Walk.expand_escape, if_neg hlast, hpaths, List.filter_cons_of_pos, List.filter_nil]
  rw [isFile_congr hlocate, hfile]

/-- The escaped text of a path that leads nowhere stands for nothing. -/
theorem expand_escape_of_missing {w : SoundWorkspace} (hsize : path.utf8ByteSize < pathLimit)
    (hmissing : w.exists? path = false) : Walk.expand w (Glob.escape path.toList) = .ok [] := by
  rw [Walk.expand_escape]
  refine congrArg Except.ok ?_
  split
  · rfl
  · next hlast =>
    refine List.filter_eq_nil_iff.mpr fun found hmem hfile => ?_
    obtain ⟨k, entry, hfound, hentry, hisFile⟩ := isFile_iff.mp hfile
    have hslash : ∀ part ∈ Walk.steps path, '/' ∉ part.toList := by
      intro part hpart
      obtain ⟨piece, hpiece, rfl⟩ := List.mem_map.mp hpart
      rw [String.toList_ofList]
      exact fun hin => (Text.mem_of_mem_pieces (Walk.mem_pieces_of_mem_components hpiece) hin).2 rfl
    have hstart : Walk.start path.toList ≠ "" ∧
        (Path.isHere (Walk.start path.toList) = true → Walk.start path.toList = ".") := by
      rw [Path.start_toList]
      split
      · decide
      · decide
    obtain ⟨l, hl, hsteps⟩ := followAll_of_mem_paths hslash hstart.1 hstart.2 hmem hfound
    by_cases hne : path = ""
    · subst hne
      cases hsteps
      have hdirectory := (locate_of_isHere (by decide) hl).2
      rw [hentry] at hdirectory
      cases hdirectory
      cases hisFile
    · have hfollow := (followAll_parts hne hlast).mpr ⟨l, hl, hsteps⟩
      have hnul : '\x00' ∉ path.toList := by
        intro hin
        obtain ⟨piece, hpiece, hin⟩ := Text.exists_mem_pieces hin (show '\x00' ≠ '/' by decide)
        have hpart := nul_of_followAll hfollow _ (List.mem_map_of_mem hpiece)
        rw [String.toList_ofList] at hpart
        exact hpart hin
      have hpath := locate_eq_ok_iff.mpr ⟨refused?_eq_none hne hnul hsize, hfollow⟩
      rw [exists?_eq_false_iff.mp hmissing k hpath] at hentry
      cases hentry

end Workspace

/-! ### Search paths with slashes at the end -/

namespace Path

/-- A name below a directory, with a single slash between them whatever the directory ends in. -/
def spelled (directory name : String) : String :=
  String.ofList (Text.dropTrailing '/' directory.toList) ++ "/" ++ name

variable {directory name : String}

private theorem parts_append_slashes (path : String) (n : Nat) :
    parts (path ++ String.ofList (List.replicate n '/')) = parts path ++ List.replicate n "" := by
  induction n with
  | zero => simp
  | succ n ih =>
    have hsplit : path ++ String.ofList (List.replicate (n + 1) '/') =
        path ++ String.ofList (List.replicate n '/') ++ "/" ++ "" := by
      apply String.toList_injective
      simp [List.replicate_succ']
    rw [hsplit, parts_append, ih, List.replicate_succ', ← List.append_assoc]
    rfl

/-- The path of a name in a search path is spelled with one slash, and more slashes before it. -/
theorem join_eq_spelled (hdirectory : directory ≠ "") (hname : isAbsolute name = false) :
    ∃ n, join directory name = String.ofList (Text.dropTrailing '/' directory.toList) ++
      String.ofList (List.replicate n '/') ++ "/" ++ name := by
  have hempty : directory.isEmpty = false := by simpa using hdirectory
  rw [join, hname, if_neg Bool.false_ne_true, hempty, Bool.false_or]
  by_cases hlast : directory.toList.getLast? = some '/'
  · obtain ⟨init, hinit⟩ := List.getLast?_eq_some_iff.mp hlast
    obtain ⟨n, hn⟩ := Text.exists_trailing '/' init
    refine ⟨n, ?_⟩
    rw [if_pos (by simpa using hlast), hinit, Text.dropTrailing_concat, if_pos rfl,
      ← String.ofList_append, ← hn]
    apply String.toList_injective
    simp [hinit]
  · obtain ⟨n, hn⟩ := Text.exists_trailing '/' directory.toList
    refine ⟨n, ?_⟩
    rw [if_neg (by simpa using hlast), ← String.ofList_append, ← hn, String.ofList_toList]

/-- The parts of both paths: the one in the search path has more empty ones. -/
theorem parts_join_eq (hdirectory : directory ≠ "") (hname : isAbsolute name = false) :
    ∃ n, parts (join directory name) =
      parts (String.ofList (Text.dropTrailing '/' directory.toList)) ++
        (List.replicate n "" ++ parts name) := by
  obtain ⟨n, hn⟩ := join_eq_spelled hdirectory hname
  refine ⟨n, ?_⟩
  rw [hn, parts_append, parts_append_slashes, List.append_assoc]

private theorem isAbsolute_spelled (hdirectory : directory ≠ "") (hname : isAbsolute name = false) :
    isAbsolute (spelled directory name) = isAbsolute (join directory name) := by
  obtain ⟨n, hn⟩ := join_eq_spelled hdirectory hname
  rw [spelled, hn]
  generalize String.ofList (Text.dropTrailing '/' directory.toList) = base
  by_cases hbase : base = ""
  · subst hbase
    cases n <;> simp [isAbsolute, List.replicate_succ]
  · rw [String.append_assoc, String.append_assoc, String.append_assoc, isAbsolute_append hbase,
      isAbsolute_append hbase]

private theorem Walkable.spelled (h : Walkable (join directory name)) (hdirectory : directory ≠ "")
    (hname : isAbsolute name = false) : Walkable (spelled directory name) := by
  obtain ⟨n, hn⟩ := parts_join_eq hdirectory hname
  obtain ⟨hvisible, hstart⟩ := h
  rw [hn] at hvisible hstart
  have hparts := parts_append (String.ofList (Text.dropTrailing '/' directory.toList)) name
  rw [← Path.spelled] at hparts
  have hfirst := parts_ne_nil (String.ofList (Text.dropTrailing '/' directory.toList))
  generalize parts (String.ofList (Text.dropTrailing '/' directory.toList)) = firsts at *
  refine ⟨fun part hpart => hvisible part ?_, ?_⟩
  · rw [hparts] at hpart
    simp only [List.mem_append] at hpart ⊢
    exact hpart.imp_right .inr
  · rw [hparts, List.head?_append_of_ne_nil _ hfirst]
    rw [List.head?_append_of_ne_nil _ hfirst] at hstart
    intro hdot hempty
    refine hstart hdot ?_
    rw [List.dropWhile_append] at hempty ⊢
    split
    · next hdots =>
      -- all the parts of the directory are dots, and the name goes on with an empty part
      rw [if_pos hdots] at hempty
      cases n with
      | zero => exact hempty
      | succ n => simp [List.replicate_succ]
    · next hdots =>
      rw [if_neg hdots] at hempty
      have hne : firsts.dropWhile (fun part => decide (part = ".")) ≠ [] := by simpa using hdots
      rw [List.head?_append_of_ne_nil _ hne] at hempty ⊢
      exact hempty

end Path

namespace Workspace

variable {w : Workspace} {directory name : String}

/-- Empty parts before others change nothing. -/
theorem followAll_empty (t : FileTree) (l : Location) (n : Nat) {parts : List String}
    (hparts : parts ≠ []) : followAll t l (List.replicate n "" ++ parts) = followAll t l parts := by
  by_cases hl : t.get? l = some .directory
  · have hstay : follow t l "" = .ok l := by
      rw [follow, hl]
      rfl
    induction n with
    | zero => rfl
    | succ n ih =>
      rw [List.replicate_succ, List.cons_append, ← List.singleton_append, followAll_append,
        followAll_singleton, hstay]
      exact ih
  · have hfails {parts : List String} (hne : parts ≠ []) :
        followAll t l parts = .error .notDirectory := by
      obtain ⟨part, parts, rfl⟩ := List.exists_cons_of_ne_nil hne
      rw [← List.singleton_append, followAll_append, followAll_singleton,
        follow_of_not_directory hl]
      rfl
    rw [hfails hparts, hfails (List.append_ne_nil_of_right_ne_nil _ hparts)]

/-- Both spellings of a name in a search path lead to the same place. -/
theorem locate_spelled (hdirectory : directory ≠ "") (hname : Path.isAbsolute name = false)
    (hsize : (Path.join directory name).utf8ByteSize < pathLimit) :
    (Path.spelled directory name).utf8ByteSize < pathLimit ∧
      w.locate (Path.spelled directory name) = w.locate (Path.join directory name) := by
  obtain ⟨n, hn⟩ := Path.join_eq_spelled hdirectory hname
  have hshorter : (Path.spelled directory name).utf8ByteSize ≤
      (Path.join directory name).utf8ByteSize := by
    rw [hn, Path.spelled]
    simp only [String.utf8ByteSize_append]
    omega
  have hspelled := Nat.lt_of_le_of_lt hshorter hsize
  refine ⟨hspelled, ?_⟩
  have hrefused : refused? (Path.spelled directory name) =
      refused? (Path.join directory name) := by
    have hnul : (Path.spelled directory name).toList.contains '\x00' =
        (Path.join directory name).toList.contains '\x00' := by
      rw [hn, Path.spelled]
      simp [List.mem_append]
    have hne : Path.spelled directory name ≠ "" ∧ Path.join directory name ≠ "" := by
      rw [hn, Path.spelled]
      simp
    rw [refused?, refused?, hnul, if_neg hne.1, if_neg hne.2,
      if_neg (Nat.not_le.mpr hspelled), if_neg (Nat.not_le.mpr hsize)]
  obtain ⟨m, hm⟩ := Path.parts_join_eq hdirectory hname
  rw [locate, locate, hrefused, start, start, Path.isAbsolute_spelled hdirectory hname, hm,
    Path.spelled, Path.parts_append, followAll_append, followAll_append]
  simp only [followAll_empty w.tree _ m (Path.parts_ne_nil name)]

end Workspace

/-! ### Candidates and patterns -/

namespace Sources

variable {w : Workspace} {s : Sources} {name : String}

/-- `StandsFor w candidate pattern`: the pattern stands for the file that the candidate leads to,
and for nothing if there is none. -/
structure StandsFor (w : Workspace) (candidate : String) (pattern : List Char) : Prop where
  missing : w.exists? candidate = false → Walk.expand w pattern = .ok []
  file : w.isFile candidate = true → Path.Walkable candidate → ∃ found,
    Walk.expand w pattern = .ok [found] ∧ w.locate found = w.locate candidate

private theorem standsFor_escape {w : SoundWorkspace} {path : String}
    (hsize : path.utf8ByteSize < Workspace.pathLimit) :
    StandsFor w path (Glob.escape path.toList) where
  missing := Workspace.expand_escape_of_missing hsize
  file := Workspace.expand_escape_of_isFile

private theorem standsFor_spelled {w : SoundWorkspace} {directory : String}
    (hdirectory : directory ≠ "")
    (hname : Path.isAbsolute name = false)
    (hsize : (Path.join directory name).utf8ByteSize < Workspace.pathLimit) :
    StandsFor w (Path.join directory name)
      (Glob.escape (Path.spelled directory name).toList) := by
  obtain ⟨hshort, hlocate⟩ := Workspace.locate_spelled (w := w) hdirectory hname hsize
  have hstands := standsFor_escape (w := w) hshort
  refine ⟨fun hmissing => hstands.missing ?_, fun hfile hwalkable => ?_⟩
  · rwa [Workspace.exists?, Workspace.entry?, hlocate, ← Workspace.entry?, ← Workspace.exists?]
  · rw [← Workspace.isFile_congr hlocate] at hfile
    rw [← hlocate]
    exact hstands.file hfile (hwalkable.spelled hdirectory hname)

private theorem normalise_of_plain (hname : Glob.Plain name) :
    Glob.normalise name.toList = Glob.escape name.toList := by
  have hstar : '*' ∉ name.toList := fun hin => hname '*' hin (by decide)
  have hsingle : Glob.Single name.toList := by
    refine List.Pairwise.isChain (List.pairwise_of_forall_mem_list fun c hc d _ hc' => ?_)
    exact absurd (hc' ▸ hc) hstar
  rw [Glob.normalise, Glob.escape_eq_self hname, Glob.collapseStars_of_single hsingle, ite_self]

private theorem patterns_of_plain (hname : Glob.Plain name) :
    s.patterns name = Glob.escape name.toList :: if Path.isAbsolute name then [] else
      s.searchPaths.map fun directory => Glob.escape (Path.spelled directory name).toList := by
  unfold patterns
  rw [normalise_of_plain hname]
  refine congrArg _ (congrArg _ (List.map_congr_left fun directory _ => ?_))
  rw [Text.dropTrailing_escape, Path.spelled, String.toList_append, String.toList_append,
    String.toList_ofList, Glob.escape_append, Glob.escape_append, List.append_assoc]
  rfl

/-- Candidates and patterns stand side by side. -/
theorem forall₂_standsFor {w : SoundWorkspace} (hname : Glob.Plain name)
    (hsearch : Path.isAbsolute name = true ∨ "" ∉ s.searchPaths)
    (hshort : ∀ path ∈ s.candidates name, path.utf8ByteSize < Workspace.pathLimit) :
    List.Forall₂ (StandsFor w) (s.candidates name) (s.patterns name) := by
  rw [patterns_of_plain hname]
  unfold candidates at hshort ⊢
  refine .cons (standsFor_escape (hshort name List.mem_cons_self)) ?_
  split
  · exact .nil
  · next hrelative =>
    rw [if_neg hrelative] at hshort
    rw [List.forall₂_map_left_iff, List.forall₂_map_right_iff, List.forall₂_same]
    intro directory hmem
    have hdirectory : directory ≠ "" := by
      rintro rfl
      exact hsearch.elim hrelative (· hmem)
    refine standsFor_spelled hdirectory (by simpa using hrelative) (hshort _ ?_)
    exact List.mem_cons_of_mem name (List.mem_map_of_mem hmem)

/-- The first candidate that exists and the first pattern that stands for something are at the same
place. -/
theorem firstMatch_of_forall₂ {candidates : List String} {patterns : List (List Char)}
    (h : List.Forall₂ (StandsFor w) candidates patterns) :
    (∀ path, candidates.find? w.exists? = some path → w.isFile path = true → Path.Walkable path →
      ∃ found, firstMatch w patterns = .ok [found] ∧ w.locate found = w.locate path) ∧
    (candidates.find? w.exists? = none → firstMatch w patterns = .ok []) := by
  induction h with
  | nil => exact ⟨by simp, fun _ => rfl⟩
  | @cons candidate pattern candidates patterns hstands _ ih =>
    rw [List.find?_cons, firstMatch]
    cases hexists : w.exists? candidate with
    | true =>
      refine ⟨fun path hpath hfile hwalkable => ?_, fun hnone => by cases hnone⟩
      cases hpath
      obtain ⟨found, hexpand, hlocate⟩ := hstands.file hfile hwalkable
      exact ⟨found, by rw [hexpand], hlocate⟩
    | false =>
      rw [hstands.missing hexists]
      exact ih

/-- A name without wildcard characters is found as a pattern where it is found by itself: the
pattern stands for the one file that the name leads to, and for nothing if the name is not found.
The walk of the pattern has to be able to follow the path of the file, the paths that are tried have
to be short enough to be looked up, and the empty path is none to search. -/
theorem literal_names {w : SoundWorkspace} (hname : Glob.Plain name)
    (hsearch : Path.isAbsolute name = true ∨ "" ∉ s.searchPaths)
    (hshort : ∀ path ∈ s.candidates name, path.utf8ByteSize < Workspace.pathLimit) :
    (∀ path, s.resolve w name = .ok path → w.isFile path = true → Path.Walkable path →
      ∃ found, s.expand w name = .ok [found] ∧ w.locate found = w.locate path) ∧
    (s.resolve w name = .error (.notFound name) → s.expand w name = .ok []) := by
  obtain ⟨hfound, hmissing⟩ := firstMatch_of_forall₂ (forall₂_standsFor hname hsearch hshort)
  constructor
  · intro path hresolve hfile hwalkable
    unfold resolve at hresolve
    split at hresolve
    · next hfind =>
      cases hresolve
      obtain ⟨found, hfirst, hlocate⟩ := hfound path hfind hfile hwalkable
      exact ⟨found, by rw [expand, hfirst], hlocate⟩
    · cases hresolve
  · intro hresolve
    unfold resolve at hresolve
    split at hresolve
    · cases hresolve
    · next hfind => rw [expand, hmissing hfind]

/-- A file in a directory with a star in its name. -/
def starredWorkspace : SoundWorkspace where
  tree.entries :=
    [(["docs"], .directory), (["li*b"], .directory),
      (["li*b", "a.txt"], .file (Text.Utf8.encode "a"))]
  sound := ⟨by decide, by decide +kernel⟩

/-- The name is found in the second directory searched, and as a pattern it stands for the same
file; another name is not found, and as a pattern it stands for nothing. -/
theorem literal_names_starred :
    let s : Sources := { searchPaths := ["docs/", "li*b//"] }
    (∃ found, s.expand starredWorkspace "a.txt" = .ok [found] ∧
      starredWorkspace.locate found = .ok ["li*b", "a.txt"]) ∧
    s.expand starredWorkspace "b.txt" = .ok [] := by
  intro s
  have hshort (name : String) (hname : name = "a.txt" ∨ name = "b.txt") :
      ∀ path ∈ s.candidates name, path.utf8ByteSize < Workspace.pathLimit := by
    rcases hname with rfl | rfl <;> decide +kernel
  have hplain : Glob.Plain "a.txt" ∧ Glob.Plain "b.txt" := by decide
  obtain ⟨hfound, -⟩ := literal_names (w := starredWorkspace) hplain.1
    (.inr (show "" ∉ s.searchPaths by decide)) (hshort _ (.inl rfl))
  obtain ⟨-, hmissing⟩ := literal_names (w := starredWorkspace) hplain.2
    (.inr (show "" ∉ s.searchPaths by decide)) (hshort _ (.inr rfl))
  refine ⟨?_, hmissing (by decide +kernel)⟩
  obtain ⟨found, hexpand, hlocate⟩ := hfound "li*b//a.txt" (by decide +kernel) (by decide +kernel)
    ⟨by decide +kernel, by decide +kernel⟩
  exact ⟨found, hexpand, hlocate.trans (by decide +kernel)⟩

private theorem utf8ByteSize_slashes (n : Nat) :
    (String.ofList (List.replicate n '/')).utf8ByteSize = n := by
  induction n with
  | zero => rfl
  | succ n ih =>
    rw [List.replicate_succ, String.ofList_cons, String.utf8ByteSize_append, ih]
    exact Nat.add_comm 1 n

/-- Where the two ways differ: a search path that is hidden and has a star in its name, the empty
search path, an empty part behind the dot that a name starts with, and a search path that is too
long to be looked up with all the slashes it ends in. -/
theorem names_differ_from_patterns :
    (let w : Workspace := { tree.entries := [([".h*"], .directory), ([".h*", "a.txt"], .file [])] }
      let s : Sources := { searchPaths := [".h*"] }
      w.tree.IsSound ∧ s.resolve w "a.txt" = .ok ".h*/a.txt" ∧ w.isFile ".h*/a.txt" = true ∧
        s.expand w "a.txt" = .ok []) ∧
    (let w : Workspace :=
        { tree.entries := [(["home"], .directory), (["a.txt"], .file [])], here := ["home"] }
      let s : Sources := { searchPaths := [""] }
      w.tree.IsSound ∧ s.resolve w "a.txt" = .error (.notFound "a.txt") ∧
        s.expand w "a.txt" = .ok ["/a.txt"]) ∧
    (let w : Workspace := { tree.entries := [(["a.txt"], .file [])] }
      let s : Sources := {}
      w.tree.IsSound ∧ s.resolve w ".//a.txt" = .ok ".//a.txt" ∧ w.isFile ".//a.txt" = true ∧
        s.expand w ".//a.txt" = .ok []) ∧
    (let w : Workspace := { tree.entries := [(["lib"], .directory), (["lib", "a.txt"], .file [])] }
      let s : Sources := { searchPaths := ["lib" ++ String.ofList (List.replicate 4096 '/')] }
      w.tree.IsSound ∧ s.resolve w "a.txt" = .error (.notFound "a.txt") ∧
        s.expand w "a.txt" = .ok ["lib/a.txt"]) := by
  refine ⟨⟨⟨by decide, by decide +kernel⟩, by decide +kernel⟩,
    ⟨⟨by decide, by decide +kernel⟩, by decide +kernel⟩,
    ⟨⟨by decide, by decide +kernel⟩, by decide +kernel⟩,
    ⟨by decide, by decide +kernel⟩, ?_, ?_⟩
  · generalize hw : Workspace.mk _ _ = w
    have hlong (l : Location) :
        w.locate (Path.join
          ("lib" ++ String.ofList (List.replicate 4096 '/')) "a.txt") ≠ .ok l := by
      intro hl
      obtain ⟨rest, hrest⟩ := Path.join_eq_append
        ("lib" ++ String.ofList (List.replicate 4096 '/')) (show '/' ∉ "a.txt".toList by decide)
      have hsize := Workspace.utf8ByteSize_of_refused? (Workspace.locate_eq_ok_iff.mp hl).1
      rw [hrest, String.utf8ByteSize_append, String.utf8ByteSize_append, utf8ByteSize_slashes,
        Workspace.pathLimit] at hsize
      omega
    have hmissing : w.exists? "a.txt" = false := by
      rw [← hw]
      decide +kernel
    have hcandidates : List.find? w.exists? (Sources.candidates
        { searchPaths := ["lib" ++ String.ofList (List.replicate 4096 '/')] } "a.txt") = none := by
      refine List.find?_eq_none.mpr fun path hpath => ?_
      rw [Bool.not_eq_true]
      rcases List.mem_cons.mp hpath with rfl | hpath
      · exact hmissing
      · rw [if_neg (by decide), List.map_singleton, List.mem_singleton] at hpath
        rw [hpath, Workspace.exists?_eq_false_iff]
        exact fun l hl => absurd hl (hlong l)
    rw [resolve, hcandidates]
  · have hspelled : Path.spelled ("lib" ++ String.ofList (List.replicate 4096 '/')) "a.txt" =
        "lib/a.txt" := by
      have hslashes : (String.ofList (List.replicate 4096 '/')).toList = List.replicate 4096 '/' :=
        String.toList_ofList
      rw [Path.spelled, String.toList_append, hslashes, Text.dropTrailing_append_replicate]
      decide
    rw [expand, patterns_of_plain (by decide), if_neg (by decide), List.map_singleton, hspelled]
    decide +kernel

end Sources

end PromptOutline
