import Mathlib.Data.List.Nodup
import Mathlib.Data.List.TakeDrop
import PromptOutline.Proofs.OpenedWalk

/-!
# Walks of escaped texts

An escaped text is a pattern for one path. Its walk goes the way that the path leads, part by part:
a part without wildcard characters is put behind the path so far, and any other one is found among
the names of the directory, where hidden names are not looked at.
-/

namespace PromptOutline

/-! ### Escaped texts as patterns -/

namespace Glob

/-- What an escaped text is read as. -/
def escaped (cs : List Char) : List Glob :=
  cs.map fun c => if c ∈ special then within [(c, c)] else literal c

private theorem set?_single {c : Char} (hc : c ∈ special) (rest : List Char) :
    set? (c :: ']' :: rest) = some (within [(c, c)], rest) := by
  have hbang : c ≠ '!' := by rintro rfl; simp [special] at hc
  have hbody : bracketed? (c :: ']' :: rest) = some ([c], rest) := by
    simp [bracketed?, List.span_eq_takeWhile_dropWhile]
  rw [set?]
  · rw [hbody]
    rfl
  · simpa using hbang

private theorem read_escape (cs : List Char) {fuel : Nat} {before : Option Char}
    (h : (escape cs).length < fuel) : read fuel before (escape cs) = .ok (escaped cs) := by
  induction cs generalizing fuel before with
  | nil =>
    obtain _ | fuel := fuel
    · cases h
    · rfl
  | cons c cs ih =>
    obtain _ | fuel := fuel
    · cases h
    rw [escape_cons] at h ⊢
    by_cases hc : c ∈ special
    · rw [if_pos hc] at h ⊢
      simp only [List.cons_append, List.nil_append, List.length_cons] at h ⊢
      rw [read, set?_single hc]
      dsimp only
      rw [ih (by omega)]
      simp [escaped, hc, Except.map]
    · rw [if_neg hc] at h ⊢
      simp only [List.cons_append, List.nil_append, List.length_cons] at h ⊢
      rw [read, ih (by omega)]
      · simp [escaped, hc, Except.map]
      all_goals
        rintro rfl
        simp [special] at hc

private theorem parse_escape (cs : List Char) : parse (escape cs) = .ok (escaped cs) :=
  read_escape cs (Nat.lt_succ_self _)

private theorem holds_single (c d : Char) : holds [(c, c)] d = true ↔ d = c := by
  rw [holds, List.any_cons, List.any_nil, Bool.or_false, Bool.and_eq_true, decide_eq_true_eq,
    decide_eq_true_eq]
  exact ⟨fun h => Char.le_antisymm h.2 h.1, fun h => h ▸ ⟨Char.le_refl d, Char.le_refl d⟩⟩

private theorem matches?_escaped (cs name : List Char) :
    matches? (escaped cs) name = true ↔ name = cs := by
  induction cs generalizing name with
  | nil => rw [escaped, List.map_nil, matches?, List.isEmpty_iff]
  | cons c cs ih =>
    have hcons : escaped (c :: cs) =
        (if c ∈ special then within [(c, c)] else literal c) :: escaped cs := rfl
    rw [hcons]
    cases name with
    | nil =>
      split
      · rw [matches?] <;> simp
      · rw [matches?] <;> simp
    | cons d name =>
      split
      · rw [matches?, Bool.and_eq_true, ih, holds_single, List.cons.injEq]
      · rw [matches?, Bool.and_eq_true, ih, beq_iff_eq, List.cons.injEq, eq_comm (a := c)]

private theorem literal?_escaped {cs : List Char} (h : ∀ c ∈ cs, c ∉ special) :
    literal? (escaped cs) = some cs := by
  induction cs with
  | nil => rfl
  | cons c cs ih =>
    have hrest := ih fun d hd => h d (List.mem_cons_of_mem c hd)
    have hcons : escaped (c :: cs) = literal c :: escaped cs := by
      simp [escaped, h c List.mem_cons_self]
    rw [hcons, literal?, hrest, Option.map_some]

private theorem literal?_escaped_of_mem {cs : List Char} {c : Char} (hc : c ∈ cs)
    (hspecial : c ∈ special) :
    literal? (escaped cs) = none := by
  induction cs with
  | nil => cases hc
  | cons d cs ih =>
    by_cases hd : d ∈ special
    · simp [escaped, hd, literal?]
    · have hne : c ≠ d := fun he => hd (he ▸ hspecial)
      have hcons : escaped (d :: cs) = literal d :: escaped cs := by simp [escaped, hd]
      rw [hcons, literal?, ih (List.mem_of_ne_of_mem hne hc), Option.map_none]

/-- Characters that are not special escape to themselves. -/
theorem escape_eq_self {cs : List Char} (h : ∀ c ∈ cs, c ∉ special) : escape cs = cs := by
  induction cs with
  | nil => rfl
  | cons c cs ih =>
    rw [escape_cons, if_neg (h c List.mem_cons_self),
      ih fun d hd => h d (List.mem_cons_of_mem c hd), List.singleton_append]

/-- A text is escaped character by character. -/
theorem escape_append (cs ds : List Char) : escape (cs ++ ds) = escape cs ++ escape ds :=
  List.flatMap_append ..

private theorem notMem_escape {c : Char} (hc : c ∉ special) {cs : List Char} (h : c ∉ cs) :
    c ∉ escape cs := by
  induction cs with
  | nil => exact h
  | cons d cs ih =>
    rw [List.mem_cons, not_or] at h
    rw [escape_cons, List.mem_append, not_or]
    refine ⟨?_, ih h.2⟩
    simp only [special, List.mem_cons, List.not_mem_nil, or_false, not_or] at hc
    split <;> simp [h.1, hc]

private theorem escape_slash (cs : List Char) : escape ('/' :: cs) = '/' :: escape cs := rfl

private theorem escape_eq_nil_iff {cs : List Char} : escape cs = [] ↔ cs = [] := by
  cases cs with
  | nil => exact iff_of_true rfl rfl
  | cons c cs =>
    rw [escape_cons]
    split <;> simp

private theorem pieces_escape (cs : List Char) :
    Text.pieces '/' (escape cs) = (Text.pieces '/' cs).map escape := by
  induction cs using Text.pieces_induction '/' with
  | single cs hcs =>
    rw [Text.pieces_of_notMem hcs, Text.pieces_of_notMem (notMem_escape (by decide) hcs)]
    rfl
  | cut piece cs hpiece ih =>
    rw [escape_append, escape_slash, Text.pieces_piece_append (notMem_escape (by decide) hpiece),
      Text.pieces_piece_append hpiece, ih, List.map_cons]

private theorem getLast?_escape (cs : List Char) :
    (escape cs).getLast? = some '/' ↔ cs.getLast? = some '/' := by
  induction cs using List.reverseRecOn with
  | nil => rfl
  | append_singleton cs c =>
    have hlast : escape [c] = if c ∈ special then ['[', c, ']'] else [c] := by
      rw [escape_cons]
      exact List.append_nil _
    rw [escape_append, hlast, List.getLast?_concat]
    split
    · next hc =>
      have hslash : c ≠ '/' := by rintro rfl; simp [special] at hc
      simp [List.getLast?_append, hslash]
    · rw [List.getLast?_concat]

/-- A text without wildcard characters. -/
def Plain (text : String) : Prop := ∀ c ∈ text.toList, c ∉ special

instance : DecidablePred Plain := fun text => List.decidableBAll (fun c => c ∉ special) text.toList

end Glob

namespace Text

/-- A text behind which one more character stands ends in that character. -/
theorem dropTrailing_concat (c d : Char) (cs : List Char) :
    dropTrailing c (cs ++ [d]) = if d = c then dropTrailing c cs else cs ++ [d] := by
  rw [dropTrailing, List.reverse_append, List.reverse_singleton, List.singleton_append,
    List.dropWhile_cons]
  split
  · next h =>
    rw [if_pos (by simpa using h)]
    rfl
  · next h =>
    rw [if_neg (by simpa using h)]
    simp

/-- Slashes at the end are dropped before or after escaping. -/
theorem dropTrailing_escape (cs : List Char) :
    dropTrailing '/' (Glob.escape cs) = Glob.escape (dropTrailing '/' cs) := by
  induction cs using List.reverseRecOn with
  | nil => rfl
  | append_singleton cs c ih =>
    by_cases hc : c = '/'
    · have hslash : Glob.escape ['/'] = ['/'] := rfl
      rw [hc, dropTrailing_concat, if_pos rfl, Glob.escape_append, hslash, dropTrailing_concat,
        if_pos rfl, ih]
    · rw [dropTrailing_concat, if_neg hc]
      have hlast : (Glob.escape (cs ++ [c])).getLast? ≠ some '/' := by
        rw [ne_eq, Glob.getLast?_escape, List.getLast?_concat]
        simpa using hc
      generalize Glob.escape (cs ++ [c]) = ds at hlast
      induction ds using List.reverseRecOn with
      | nil => rfl
      | append_singleton ds d =>
        rw [List.getLast?_concat] at hlast
        rw [dropTrailing_concat, if_neg (by simpa using hlast)]

end Text

/-! ### Their components -/

namespace Walk

private theorem belowRoot_escape (cs : List Char) :
    belowRoot (Glob.escape cs) = Glob.escape (belowRoot cs) ∧
      start (Glob.escape cs) = start cs := by
  cases cs with
  | nil => exact ⟨rfl, rfl⟩
  | cons c cs =>
    by_cases hc : c = '/'
    · subst hc
      exact ⟨rfl, rfl⟩
    · have hbelow : belowRoot (c :: cs) = c :: cs := by simp [belowRoot, hc]
      have hstart : start (c :: cs) = "." := by simp [start, hc]
      rw [hbelow, hstart, Glob.escape_cons]
      split
      · exact ⟨rfl, rfl⟩
      · simp [belowRoot, start, hc]

private theorem components_escape (cs : List Char) :
    components (Glob.escape cs) = (components cs).map Glob.escape := by
  have hlast : ((Text.pieces '/' cs).map Glob.escape).getLast? = some [] ↔
      (Text.pieces '/' cs).getLast? = some [] := by
    rw [List.getLast?_map, Option.map_eq_some_iff]
    simp [Glob.escape_eq_nil_iff]
  unfold components
  simp only [Glob.pieces_escape, hlast]
  split
  · rw [List.map_dropLast]
  · rfl

/-- The parts of a path as they are walked, behind the slash for the root. -/
def steps (path : String) : List String := (components (belowRoot path.toList)).map String.ofList

/-- The pattern of an escaped part. -/
def single (part : String) : Component := Glob.escaped part.toList

/-- An escaped path stands for the files that the walk along its steps finds. -/
theorem expand_escape (w : Workspace) (path : String) :
    expand w (Glob.escape path.toList) = .ok (if path.toList.getLast? = some '/' then [] else
      (paths w ((steps path).map single) (start path.toList)).filter w.isFile) := by
  have hparse (parts : List (List Char)) :
      (parts.map Glob.escape).mapM Glob.parse = .ok (parts.map Glob.escaped) := by
    induction parts with
    | nil => rfl
    | cons part parts ih =>
      rw [List.map_cons, List.mapM_cons, Glob.parse_escape, ih]
      rfl
  have hsteps : (steps path).map single =
      (components (belowRoot path.toList)).map Glob.escaped := by
    rw [steps, List.map_map]
    exact List.map_congr_left fun part _ => congrArg Glob.escaped String.toList_ofList
  rw [expand_eq, Glob.parse_escape, (belowRoot_escape _).1, (belowRoot_escape _).2,
    components_escape, hparse, hsteps]
  simp only [Glob.getLast?_escape, bind, Except.bind]
  split <;> rfl

end Walk

/-! ### Names in a directory -/

namespace FileTree

variable {t : FileTree} {l : Location} {name : String}

/-- What stands below the root has a location among the entries. -/
theorem mem_locations_of_get? (hl : l ≠ []) (h : (t.get? l).isSome) :
    l ∈ t.entries.map (·.1) := by
  rw [get?, if_neg hl, List.lookup_isSome_iff] at h
  obtain ⟨entry, hentry, hkey⟩ := h
  exact List.mem_map.mpr ⟨entry, hentry, (eq_of_beq hkey).symm⟩

private theorem mem_visibleNames :
    name ∈ t.visibleNames l ↔ l ++ [name] ∈ t.entries.map (·.1) ∧ isHidden name = false := by
  rw [visibleNames_eq_locations, List.mem_mergeSort, List.mem_filterMap]
  constructor
  · rintro ⟨m, hm, hname⟩
    obtain rfl := visibleName?_eq_some hname
    refine ⟨hm, ?_⟩
    simpa [visibleName?] using hname
  · rintro ⟨hm, hvisible⟩
    exact ⟨l ++ [name], hm, by simp [visibleName?, hvisible]⟩

private theorem IsSound.nodup_visibleNames (h : t.IsSound) (l : Location) :
    (t.visibleNames l).Nodup := by
  rw [visibleNames_eq_locations, (List.mergeSort_perm _ _).nodup_iff]
  refine List.Nodup.filterMap (fun m m' name hm hm' => ?_) h.distinct
  rw [visibleName?_eq_some hm, visibleName?_eq_some hm']

end FileTree

private theorem Workspace.isDirectory_iff {w : Workspace} {path : String} :
    w.isDirectory path = true ↔
    ∃ l, w.locate path = .ok l ∧ w.tree.get? l = some .directory := by
  unfold isDirectory entry?
  cases w.locate path <;> simp

namespace Walk

variable {w : Workspace} {path part : String} {l : Location}

private theorem fileName?_below (hpath : path ≠ "") {name : String} (hname : Path.IsName name) :
    Path.fileName? (below path name) = some name := by
  have hparts : ∃ init, Path.parts (below path name) = init ++ [name] := by
    unfold below
    split
    · exact ⟨[], Path.parts_of_notMem hname.slash⟩
    · obtain ⟨init, -, -, -, -, hjoin⟩ := Path.parts_join hpath hname.slash
      exact ⟨init, hjoin⟩
  obtain ⟨init, hinit⟩ := hparts
  have hnames : ∃ others, Path.names (below path name) = others ++ [name] := by
    refine ⟨init.filter fun part => part != "" && part != ".", ?_⟩
    simp [Path.names, hinit, hname.nonempty, hname.here]
  obtain ⟨others, hothers⟩ := hnames
  rw [Path.fileName?, hothers, List.getLast?_concat]
  exact if_neg hname.up

/-- The one child that an escaped part stands for. -/
theorem children_single {w : SoundWorkspace} (hpath : w.locate path = .ok l)
    (hl : w.tree.get? l = some .directory) (part : String) :
    (children w path).filter (fits (single part)) =
      if part ∈ w.tree.visibleNames l then [below path part] else [] := by
  have hfits : ∀ name ∈ w.tree.visibleNames l,
      fits (single part) (below path name) = (name == part) := by
    intro name hname
    have hnamed := (w.sound.named _ (FileTree.mem_visibleNames.mp hname).1 name (by simp)).1
    rw [fits, fileName?_below (Workspace.ne_empty_of_locate hpath) hnamed, Option.any_some]
    rw [Bool.eq_iff_iff, single, Glob.matches?_escaped, beq_iff_eq, String.toList_inj]
  have hfilter : (w.tree.visibleNames l).filter (fun name => fits (single part) (below path name)) =
      (w.tree.visibleNames l).filter (· == part) := List.filter_congr hfits
  simp only [children, hpath, if_pos hl]
  rw [List.filter_map]
  simp only [Function.comp_def]
  rw [hfilter, List.filter_beq]
  split
  · next hmem =>
    rw [List.count_eq_one_of_mem (w.sound.nodup_visibleNames l) hmem]
    rfl
  · next hmem =>
    rw [List.count_eq_zero_of_not_mem hmem]
    rfl

/-! ### One part of a walk -/

private theorem isDeep_single (part : String) : isDeep (single part) = false := by
  rw [isDeep, List.contains_eq_mem, decide_eq_false_iff_not, single, Glob.escaped, List.mem_map]
  rintro ⟨c, -, hc⟩
  split at hc <;> cases hc

private theorem dotNames_single (h : ¬ Glob.Plain part) : dotNames (single part) = [] := by
  unfold dotNames
  split
  · refine List.filter_eq_nil_iff.mpr fun dots hdots hmatch => h ?_
    obtain rfl : dots = part := String.toList_injective ((Glob.matches?_escaped _ _).mp hmatch)
    rcases List.mem_cons.mp hdots with rfl | hdots
    · decide
    · obtain rfl := List.mem_singleton.mp hdots
      decide
  · rfl

/-- A part without wildcard characters only has to lead somewhere. -/
theorem paths_of_plain (h : Glob.Plain part) (cs : List Component) :
    paths w (single part :: cs) path =
      if (if part = "." || part = ".." then w.isDirectory path
          else w.exists? (below path part)) then
        paths w cs (below path part)
      else [] := by
  have hliteral : Glob.literal? (single part) = some part.toList := Glob.literal?_escaped h
  rw [paths, hliteral]
  simp only [String.ofList_toList]

/-- Any other part is looked for among the names of the directory. -/
theorem paths_of_not_plain (h : ¬ Glob.Plain part) (cs : List Component) :
    paths w (single part :: cs) path =
      if w.isDirectory path then
        ((children w path).filter (fits (single part))).flatMap (paths w cs)
      else [] := by
  have hwild : Glob.literal? (single part) = none := by
    simp only [Glob.Plain, not_forall, not_not] at h
    obtain ⟨c, hc, hspecial⟩ := h
    exact Glob.literal?_escaped_of_mem hc hspecial
  rw [paths, hwild, isDeep_single, dotNames_single h]
  simp

private theorem below_ne_empty (hpath : path ≠ "") (hpart : part ≠ "")
    (hslash : '/' ∉ part.toList) :
    below path part ≠ "" := by
  unfold below
  split
  · exact hpart
  · obtain ⟨rest, hrest⟩ := Path.join_eq_append path hslash
    simp [hrest, hpath]

/-- Only the path for the directory that a walk starts from stays there, with the part that
stays. -/
theorem eq_of_isHere_below (hpath : path ≠ "") (hslash : '/' ∉ part.toList)
    (h : Path.isHere (below path part) = true) :
    (Path.isHere path = true ∧ part = ".") ∧ below path part = "." := by
  unfold below at h ⊢
  split at h
  · next hhere =>
    have hdot : part = "." := by
      have hhead := (Path.isHere_iff.mp h).1
      rw [Path.parts_of_notMem hslash, List.head?_cons] at hhead
      exact Option.some.inj hhead
    rw [if_pos hhere]
    exact ⟨⟨hhere, hdot⟩, hdot⟩
  · next haway =>
    rw [Path.isHere_join hpath hslash (by simpa using haway)] at h
    cases h

/-- The walk of an escaped part goes nowhere but behind the path so far. -/
theorem mem_paths_single {w : SoundWorkspace} (hpath : path ≠ "") (hslash : '/' ∉ part.toList)
    {cs : List Component} {found : String} (h : found ∈ paths w (single part :: cs) path) :
    found ∈ paths w cs (below path part) ∧ below path part ≠ "" := by
  by_cases hplain : Glob.Plain part
  · rw [paths_of_plain hplain] at h
    obtain ⟨hreach, hfound⟩ := List.mem_ite_nil_right.mp h
    refine ⟨hfound, ?_⟩
    by_cases hempty : part = ""
    · -- an empty part has to lead to something, as any other name
      rintro hnone
      rw [hnone, hempty] at hreach
      simp [Workspace.exists?, Workspace.entry?, Workspace.locate, Workspace.refused?] at hreach
    · exact below_ne_empty hpath hempty hslash
  · rw [paths_of_not_plain hplain] at h
    obtain ⟨hdirectory, hchildren⟩ := List.mem_ite_nil_right.mp h
    obtain ⟨l, hlocate, hl⟩ := Workspace.isDirectory_iff.mp hdirectory
    obtain ⟨child, hchild, hfound⟩ := List.mem_flatMap.mp hchildren
    rw [children_single hlocate hl] at hchild
    obtain rfl := List.mem_singleton.mp (List.mem_ite_nil_right.mp hchild).2
    have hempty : part ≠ "" := by
      rintro rfl
      exact hplain (by decide)
    exact ⟨hfound, below_ne_empty hpath hempty hslash⟩

/-- The walk of an escaped part goes where the path leads with the part behind it, unless the part
is a hidden name with wildcard characters. -/
theorem paths_single {w : SoundWorkspace} (hpath : w.locate path = .ok l) {k : Location}
    (hfollow : Workspace.follow w.tree l part = .ok k)
    (hbelow : w.locate (below path part) = .ok k)
    (hvisible : FileTree.isHidden part = true → Glob.Plain part) (cs : List Component) :
    paths w (single part :: cs) path = paths w cs (below path part) := by
  obtain ⟨hl, hcases⟩ := Workspace.follow_cases hfollow
  have hdirectory : w.isDirectory path = true := Workspace.isDirectory_iff.mpr ⟨l, hpath, hl⟩
  by_cases hplain : Glob.Plain part
  · rw [paths_of_plain hplain, if_pos]
    split
    · exact hdirectory
    · next hdots =>
      rw [Workspace.exists?, Workspace.entry?, hbelow]
      rcases hcases with ⟨-, rfl⟩ | ⟨hup, -⟩ | ⟨-, -, -, -, hsome⟩
      · exact Option.isSome_iff_exists.mpr ⟨_, hl⟩
      · simp [hup] at hdots
      · exact hsome
  · have hmem : part ∈ w.tree.visibleNames l := by
      rcases hcases with ⟨rfl | rfl, -⟩ | ⟨rfl, -⟩ | ⟨-, -, -, rfl, hsome⟩
      · exact absurd (by decide) hplain
      · exact absurd (by decide) hplain
      · exact absurd (by decide) hplain
      · refine FileTree.mem_visibleNames.mpr
          ⟨FileTree.mem_locations_of_get? (by simp) hsome, ?_⟩
        by_contra hhidden
        exact hplain (hvisible (by simpa using hhidden))
    rw [paths_of_not_plain hplain, if_pos hdirectory, children_single hpath hl, if_pos hmem,
      List.flatMap_singleton]

end Walk

/-! ### Walks of all the parts of a path -/

namespace Path

/-- The bytes of some parts, each with a slash. -/
def extent : List String → Nat
  | [] => 0
  | part :: parts => part.utf8ByteSize + 1 + extent parts

/-- The extent of two lists of parts is that of both. -/
theorem extent_append (parts parts' : List String) :
    extent (parts ++ parts') = extent parts + extent parts' := by
  induction parts with
  | nil => exact (Nat.zero_add _).symm
  | cons part parts ih =>
    rw [List.cons_append, extent, extent, ih]
    omega

end Path

namespace Workspace

variable {w : Workspace} {path part : String} {k : Location}

/-- A dot leads to the working directory. -/
theorem locate_here (h : w.tree.get? w.here = some .directory) : w.locate "." = .ok w.here := by
  rw [locate_eq_ok_iff, start, show Path.isAbsolute "." = false by decide,
    show Path.parts "." = ["."] by decide, followAll_singleton, if_neg Bool.false_ne_true, follow,
    h]
  exact ⟨by decide, rfl⟩

/-- A path with a part behind it leads to where the part leads from where the path leads. -/
theorem locate_below_iff (hpath : path ≠ "") (hhere : Path.isHere path = true → path = ".")
    (hslash : '/' ∉ part.toList) :
    w.locate (Walk.below path part) = .ok k ↔ refused? (Walk.below path part) = none ∧
      ∃ l, w.locate path = .ok l ∧ follow w.tree l part = .ok k := by
  have hstart : w.start part = w.here := by
    rw [start, Path.isAbsolute_of_notMem hslash, if_neg Bool.false_ne_true]
  unfold Walk.below
  split
  · next h =>
    obtain rfl := hhere h
    rw [locate_eq_ok_iff, hstart, Path.parts_of_notMem hslash, followAll_singleton]
    refine and_congr_right fun _ => ⟨fun hfollow => ⟨w.here, ?_, hfollow⟩, ?_⟩
    · exact locate_here (get?_of_follow hfollow)
    · rintro ⟨l, hl, hfollow⟩
      rwa [(locate_of_isHere h hl).1] at hfollow
  · constructor
    · intro h
      exact ⟨(locate_eq_ok_iff.mp h).1, locate_join hpath hslash h⟩
    · rintro ⟨hrefused, l, hl, hfollow⟩
      obtain ⟨init, last, hparts, hlast, -, hjoin⟩ := Path.parts_join hpath hslash
      obtain ⟨rest, hrest⟩ := Path.join_eq_append path hslash
      have hinit : followAll w.tree (w.start path) init = .ok l := by
        have hall := (locate_eq_ok_iff.mp hl).2
        rw [hparts, followAll_append] at hall
        cases hm : followAll w.tree (w.start path) init with
        | error fault => rw [hm] at hall; cases hall
        | ok m =>
          rw [hm] at hall
          rw [(followAll_stay (fun p hp => ?_) hall).1]
          rcases hlast with rfl | rfl
          · cases hp
          · exact .inl (List.mem_singleton.mp hp)
      refine locate_eq_ok_iff.mpr ⟨hrefused, ?_⟩
      rw [start, hrest, Path.isAbsolute_append hpath, ← start, ← hrest, hjoin, followAll_append,
        hinit, Except.bind, followAll_singleton, hfollow]

/-- Parts are followed by following the first one, and the others from there. -/
theorem followAll_cons {t : FileTree} {l : Location} {parts : List String} :
    followAll t l (part :: parts) = .ok k ↔
      ∃ m, follow t l part = .ok m ∧ followAll t m parts = .ok k := by
  rw [← List.singleton_append, followAll_append, followAll_singleton]
  cases follow t l part <;> simp [Except.bind]

/-- What the walk of escaped parts finds is where the parts lead. -/
theorem followAll_of_mem_paths {w : SoundWorkspace} {parts : List String}
    (hslash : ∀ part ∈ parts, '/' ∉ part.toList) (hpath : path ≠ "")
    (hhere : Path.isHere path = true → path = ".") {found : String}
    (h : found ∈ Walk.paths w (parts.map Walk.single) path) (hfound : w.locate found = .ok k) :
    ∃ l, w.locate path = .ok l ∧ followAll w.tree l parts = .ok k := by
  induction parts generalizing path with
  | nil =>
    obtain rfl := List.mem_singleton.mp h
    exact ⟨k, hfound, rfl⟩
  | cons part parts ih =>
    have hpart := hslash part List.mem_cons_self
    obtain ⟨hnext, hne⟩ := Walk.mem_paths_single hpath hpart h
    obtain ⟨m, hm, hall⟩ := ih (fun p hp => hslash p (List.mem_cons_of_mem part hp)) hne
      (fun hstay => (Walk.eq_of_isHere_below hpath hpart hstay).2) hnext
    obtain ⟨-, l, hl, hfollow⟩ := (locate_below_iff hpath hhere hpart).mp hm
    exact ⟨l, hl, followAll_cons.mpr ⟨m, hfollow, hall⟩⟩

end Workspace

namespace Walk

variable {path part : String} {parts : List String}

/-- A part behind a path is written behind the path with its slash. -/
theorem below_eq_append (hslash : '/' ∉ part.toList) : below path part = below path "" ++ part := by
  unfold below
  split
  · exact (String.empty_append ..).symm
  · rw [Path.join, Path.join, Path.isAbsolute_of_notMem hslash]
    simp only [show Path.isAbsolute "" = false by decide, Bool.false_eq_true, if_false]
    split <;> simp [String.append_assoc]

private theorem utf8ByteSize_below_empty (path : String) :
    (below path "").utf8ByteSize ≤ path.utf8ByteSize + 1 := by
  unfold below
  split
  · exact Nat.zero_le _
  · rw [Path.join, if_neg (by decide)]
    split
    · simp
    · rw [String.append_empty, String.utf8ByteSize_append]
      exact Nat.le_refl _

private theorem mem_below_empty {c : Char} (h : c ∈ (below path "").toList) :
    c ∈ path.toList ∨ c = '/' := by
  unfold below at h
  split at h
  · cases h
  · rw [Path.join, if_neg (by decide)] at h
    split at h
    · exact .inl (by simpa using h)
    · simpa using h

/-- `Room path parts`: the parts can be put behind the path one by one, and each of the longer paths
can be looked up. -/
structure Room (path : String) (parts : List String) : Prop where
  nonempty : path ≠ ""
  /-- Behind the directory that a walk starts from, an empty part would make the path empty. -/
  here : Path.isHere path = true → path = "." ∧ (parts.dropWhile (· = ".")).head? ≠ some ""
  slash : ∀ part ∈ parts, '/' ∉ part.toList
  nul : '\x00' ∉ path.toList ∧ ∀ part ∈ parts, '\x00' ∉ part.toList
  size : (below path "").utf8ByteSize + Path.extent parts ≤ Workspace.pathLimit

namespace Room

private theorem below_ne_empty (h : Room path (part :: parts)) : below path part ≠ "" := by
  by_cases hempty : part = ""
  · have haway : Path.isHere path = false := by
      by_contra hhere
      exact (h.here (by simpa using hhere)).2 (by simp [hempty])
    unfold Walk.below
    rw [haway, if_neg Bool.false_ne_true]
    obtain ⟨rest, hrest⟩ := Path.join_eq_append path (h.slash part List.mem_cons_self)
    simp [hrest, h.nonempty]
  · exact Walk.below_ne_empty h.nonempty hempty (h.slash part List.mem_cons_self)

private theorem utf8ByteSize_below (h : Room path (part :: parts)) :
    (below path part).utf8ByteSize + 1 + Path.extent parts ≤ Workspace.pathLimit := by
  have hsize := h.size
  rw [below_eq_append (h.slash part List.mem_cons_self), String.utf8ByteSize_append]
  rw [Path.extent] at hsize
  omega

private theorem nul_below (h : Room path (part :: parts)) : '\x00' ∉ (below path part).toList := by
  rw [below_eq_append (h.slash part List.mem_cons_self), String.toList_append, List.mem_append,
    not_or]
  refine ⟨fun hmem => ?_, h.nul.2 part List.mem_cons_self⟩
  rcases mem_below_empty hmem with hmem | hmem
  · exact h.nul.1 hmem
  · cases hmem

private theorem below (h : Room path (part :: parts)) : Room (below path part) parts where
  nonempty := h.below_ne_empty
  here hhere := by
    obtain ⟨⟨hpath, rfl⟩, hbelow⟩ :=
      eq_of_isHere_below h.nonempty (h.slash part List.mem_cons_self) hhere
    refine ⟨hbelow, ?_⟩
    have hrest := (h.here hpath).2
    rwa [List.dropWhile_cons_of_pos (by simp)] at hrest
  slash p hp := h.slash p (List.mem_cons_of_mem part hp)
  nul := ⟨h.nul_below, fun p hp => h.nul.2 p (List.mem_cons_of_mem part hp)⟩
  size := by
    have hsize := h.utf8ByteSize_below
    have hempty := utf8ByteSize_below_empty (Walk.below path part)
    omega

private theorem refused?_below (h : Room path (part :: parts)) :
    Workspace.refused? (Walk.below path part) = none := by
  have hsize := h.utf8ByteSize_below
  rw [Workspace.refused?, if_neg (by simpa using h.nul_below), if_neg h.below_ne_empty,
    if_neg (by omega)]

end Room

end Walk

namespace Workspace

variable {w : Workspace} {path : String} {k l : Location}

/-- The walk of escaped parts finds one path, and it leads where the parts lead. -/
theorem paths_of_followAll {w : SoundWorkspace} {parts : List String} (hroom : Walk.Room path parts)
    (hpath : w.locate path = .ok l) (hfollow : followAll w.tree l parts = .ok k)
    (hvisible : ∀ part ∈ parts, FileTree.isHidden part = true → Glob.Plain part) :
    ∃ found, Walk.paths w (parts.map Walk.single) path = [found] ∧ w.locate found = .ok k := by
  induction parts generalizing path l with
  | nil =>
    cases hfollow
    exact ⟨path, rfl, hpath⟩
  | cons part parts ih =>
    obtain ⟨m, hm, hall⟩ := followAll_cons.mp hfollow
    have hbelow : w.locate (Walk.below path part) = .ok m :=
      (locate_below_iff hroom.nonempty (fun hhere => (hroom.here hhere).1)
        (hroom.slash part List.mem_cons_self)).mpr ⟨hroom.refused?_below, l, hpath, hm⟩
    obtain ⟨found, hpaths, hfound⟩ := ih hroom.below hbelow hall
      fun p hp => hvisible p (List.mem_cons_of_mem part hp)
    refine ⟨found, ?_, hfound⟩
    rw [List.map_cons, Walk.paths_single hpath hm hbelow (hvisible part List.mem_cons_self),
      hpaths]

end Workspace

end PromptOutline
