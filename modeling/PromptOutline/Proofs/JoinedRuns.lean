import PromptOutline.Proofs.Passes
import PromptOutline.Proofs.Rows
import PromptOutline.Proofs.Segments

/-!
# Runs of lines among children

Joining lines below a document of trees replaces every run of lines among the children of a block by
the parts that its fences give. A part is the node of its first line, with the lines of the part in
its value; children that are no lines stay as they are. A walk over the children meets a run with
nothing open and leaves it at a child that is no line or at the end, so a run can be looked at
alone, and what is joined elsewhere in the document does not change it.
-/

namespace PromptOutline

private theorem Text.joinWith_concat {parts : List String} (h : parts ≠ []) (sep last : String) :
    joinWith sep (parts ++ [last]) = joinWith sep parts ++ sep ++ last := by
  rw [joinWith, String.intercalate_append_of_ne_nil h (by simp), String.intercalate_singleton,
    joinWith]

/-- Joined lines are cut at line feeds again. -/
theorem Text.splitAt_joinWith {parts : List String} (hne : parts ≠ [])
    (h : ∀ part ∈ parts, '\n' ∉ part.toList) : splitAt '\n' (joinWith "\n" parts) = parts := by
  induction parts with
  | nil => exact absurd rfl hne
  | cons first rest ih =>
    have hfirst : pieces '\n' first.toList = [first.toList] := pieces_of_notMem (h first (by simp))
    cases rest with
    | nil =>
      rw [joinWith, String.intercalate_singleton, splitAt, hfirst]
      simp
    | cons next rest =>
      have hlist : (joinWith "\n" (first :: next :: rest)).toList =
          first.toList ++ '\n' :: (joinWith "\n" (next :: rest)).toList := by
        rw [joinWith, String.intercalate_cons_cons, String.toList_append, String.toList_append,
          joinWith]
        simp
      rw [splitAt, hlist, pieces_append, hfirst, List.map_append]
      have hrest := ih (by simp) fun part hp => h part (by simp [hp])
      rw [splitAt] at hrest
      rw [hrest]
      simp

namespace Document

variable {d e : Document}

/-- A document of trees: no node stands below itself, below two nodes or twice below one. -/
structure TreeShaped (d : Document) : Prop where
  closed : d.Closed
  acyclic : d.Acyclic
  nodup : ∀ p, (d.node p).children.Nodup
  unique : ∀ p q i, i ∈ (d.node p).children → i ∈ (d.node q).children → p = q

private theorem treeShaped_of_lt (h : ∀ p < d.size, (d.node p).children.Nodup ∧
    ∀ i ∈ (d.node p).children, p < i ∧ i < d.size ∧
      ∀ q < d.size, i ∈ (d.node q).children → p = q) : d.TreeShaped := by
  have hlt {p i : NodeId} (hi : i ∈ (d.node p).children) : p < d.size := by
    by_contra hle
    rw [node_of_size_le (Nat.le_of_not_lt hle)] at hi
    cases hi
  refine ⟨fun p i hi => ((h p (hlt hi)).2 i hi).2.1,
    acyclic_of_behind fun p i hi => ((h p (hlt hi)).2 i hi).1, fun p => ?_,
    fun p q i hp hq => ((h p (hlt hp)).2 i hp).2.2 q (hlt hq) hq⟩
  by_cases hp : p < d.size
  · exact (h p hp).1
  · rw [node_of_size_le (Nat.le_of_not_lt hp)]
    exact List.nodup_nil

/-- Whether a node is a line as it was read. -/
def IsLine (d : Document) (i : NodeId) : Prop := (d.node i).kind = .text ∧ (d.node i).form = .line

/-- Lines next to each other among the children of a node, with no further one before or behind. -/
structure IsRun (d : Document) (b : NodeId) (before run after : List NodeId) : Prop where
  children : (d.node b).children = before ++ run ++ after
  lines : ∀ i ∈ run, d.IsLine i
  first : ∀ i, before.getLast? = some i → ¬ d.IsLine i
  last : ∀ i, after.head? = some i → ¬ d.IsLine i

/-- The node of a part: that of its first line. -/
def Segment.node (run : List NodeId) (p : Segment) : NodeId := run.getD p.first 0

/-! ### One run -/

namespace Joining

private theorem step_of_not_isLine {j : Joining} {child : NodeId} (h : ¬ j.document.IsLine child) :
    j.step child = { j with kept := j.kept ++ [child], region := .closed } := by
  have hcond : (!(j.document.node child).isText || (j.document.node child).form != .line) =
      true := by
    simpa [Content.isText, IsLine, imp_iff_not_or] using h
  simp only [step, hcond, if_true]

end Joining

namespace Segment

private theorem lines_concat_of_le {p : Segment} {vs : List String}
    (h : p.first + p.count ≤ vs.length)
    (v : String) : p.lines (vs ++ [v]) = p.lines vs := by
  rw [lines, List.drop_append_of_le_length (by omega), List.take_append_of_le_length, lines]
  rw [List.length_drop]
  omega

private theorem lines_extend {p : Segment} {vs : List String} (h : p.first + p.count = vs.length)
    (v : String) :
    p.extend.lines (vs ++ [v]) = p.lines vs ++ [v] := by
  have hlength : (vs.drop p.first).length = p.count := by
    rw [List.length_drop]
    omega
  have hdrop : (vs ++ [v]).drop p.first = vs.drop p.first ++ [v] :=
    List.drop_append_of_le_length (by omega)
  rw [lines, lines, extend, hdrop, List.take_of_length_le (by simp [hlength]),
    List.take_of_length_le (Nat.le_of_eq hlength)]

private theorem lines_eq_map {p : Segment} {vs : List String} (h : p.first + p.count ≤ vs.length) :
    p.lines vs = p.places.map fun i => vs.getD i "" := by
  refine List.ext_getElem? fun k => ?_
  rw [lines, places, List.getElem?_map, List.getElem?_take, List.getElem?_drop]
  by_cases hk : k < p.count
  · rw [if_pos hk, List.getElem?_range' hk, Option.map_some, List.getD_eq_getElem?_getD,
      Nat.one_mul, List.getElem?_eq_getElem (by omega), Option.getD_some]
  · rw [if_neg hk, List.getElem?_eq_none (by simpa using hk)]
    rfl

end Segment

/-- The parts of a run end in the run. -/
theorem Segmentation.end_le {vs : List String} {parts : List Segment} (h : Segmentation vs parts)
    {p : Segment} (hp : p ∈ parts) : p.first + p.count ≤ vs.length := by
  have hpos := h.starts p hp
  have hlt := h.lt_length hp (i := p.first + p.count - 1) (Segment.mem_places.mpr (by omega))
  omega

private theorem Segmentation.first_lt_length {run : List NodeId} {value : NodeId → String}
    {parts : List Segment} (h : Segmentation (run.map value) parts) {p : Segment} (hp : p ∈ parts) :
    p.first < run.length := by
  have hend := h.end_le hp
  have hpos := h.starts p hp
  rw [List.length_map] at hend
  omega

/-- Segments stand at nodes of the run. -/
theorem Segmentation.node_mem {run : List NodeId} {value : NodeId → String} {parts : List Segment}
    (h : Segmentation (run.map value) parts) {p : Segment} (hp : p ∈ parts) : p.node run ∈ run := by
  rw [Segment.node, List.getD_eq_getElem?_getD, List.getElem?_eq_getElem (h.first_lt_length hp),
    Option.getD_some]
  exact List.getElem_mem _

/-- The region of an open segment. -/
def regionOf (run : List NodeId) : Option Segment → Region
  | none => .closed
  | some p => if p.form = .fenced then .fenced (p.node run) else .paragraph (p.node run)

/-- What holds of a walk over the lines `seen`: the children kept are the nodes of segments, each
with the lines of its segment, and nothing else was changed. -/
structure Splits (d : Document) (seen : List NodeId) (j : Joining) (done : List Segment)
    (last? : Option Segment) : Prop where
  scanned : Scanned (seen.map fun i => (d.node i).value) done last?
  size : j.document.size = d.size
  kept : j.kept = (done ++ last?.toList).map (Segment.node seen)
  region : j.region = regionOf seen last?
  apart : ∀ i, i ∉ seen → j.document.node i = d.node i
  node : ∀ p ∈ done ++ last?.toList, j.document.node (p.node seen) =
    { d.node (p.node seen) with
      form := p.form,
      value := Text.joinWith "\n" (p.lines (seen.map fun i => (d.node i).value)) }

namespace Splits

variable {seen : List NodeId} {j : Joining} {done : List Segment} {last? : Option Segment}
  {p : Segment} {child : NodeId}

private theorem nil (d : Document) : Splits d [] { document := d } [] none where
  scanned := .nil
  size := rfl
  kept := rfl
  region := rfl
  apart _ _ := rfl
  node p hp := by cases hp

private theorem first_lt (h : Splits d seen j done last?) (hp : p ∈ done ++ last?.toList) :
    p.first < seen.length :=
  h.scanned.segmentation.first_lt_length hp

private theorem node_concat (h : Splits d seen j done last?) (hp : p ∈ done ++ last?.toList)
    (child : NodeId) : p.node (seen ++ [child]) = p.node seen := by
  simp [Segment.node, List.getD_eq_getElem?_getD, List.getElem?_append_left (h.first_lt hp)]

private theorem node_mem (h : Splits d seen j done last?) (hp : p ∈ done ++ last?.toList) :
    p.node seen ∈ seen :=
  h.scanned.segmentation.node_mem hp

private theorem lines_concat (h : Splits d seen j done last?) (hp : p ∈ done ++ last?.toList)
    (child : NodeId) : p.lines ((seen ++ [child]).map fun i => (d.node i).value) =
      p.lines (seen.map fun i => (d.node i).value) := by
  rw [List.map_append]
  exact Segment.lines_concat_of_le (h.scanned.segmentation.end_le hp) _

private theorem map_node_concat (h : Splits d seen j done last?) (child : NodeId) :
    (done ++ last?.toList).map (Segment.node (seen ++ [child])) =
      (done ++ last?.toList).map (Segment.node seen) :=
  List.map_congr_left fun _ hp => h.node_concat hp child

/-- An empty line is left out, and no segment is open any more. -/
theorem drop (h : Splits d seen j done last?)
    (hscanned : Scanned ((seen ++ [child]).map fun i => (d.node i).value)
      (done ++ last?.toList) none) :
    Splits d (seen ++ [child]) { j with region := .closed } (done ++ last?.toList) none where
  scanned := hscanned
  size := h.size
  kept := by
    rw [Option.toList_none, List.append_nil, h.map_node_concat]
    exact h.kept
  region := rfl
  apart i hi := h.apart i fun hm => hi (List.mem_append_left _ hm)
  node p hp := by
    rw [Option.toList_none, List.append_nil] at hp
    rw [h.node_concat hp, h.lines_concat hp]
    exact h.node p hp

/-- A line opens a segment. -/
theorem start (h : Splits d seen j done last?) (form : TextForm) (region : Region)
    (hnew : child ∉ seen) (hlt : child < d.size)
    (hscanned : Scanned ((seen ++ [child]).map fun i => (d.node i).value) (done ++ last?.toList)
      (some ⟨form, seen.length, 1⟩))
    (hregion : region = if form = .fenced then .fenced child else .paragraph child) :
    Splits d (seen ++ [child]) (j.start child form region) (done ++ last?.toList)
      (some ⟨form, seen.length, 1⟩) := by
  have hself : (⟨form, seen.length, 1⟩ : Segment).node (seen ++ [child]) = child := by
    simp [Segment.node]
  refine ⟨hscanned, ?_, ?_, ?_, fun i hi => ?_, fun p hp => ?_⟩
  · rw [Joining.start, (Touches.modify _ _ _).size, h.size]
  · rw [List.map_append, h.map_node_concat]
    simp [Joining.start, h.kept, hself]
  · rw [regionOf, hself]
    exact hregion
  · rw [List.mem_append, not_or, List.mem_singleton] at hi
    rw [Joining.start, node_modify_of_ne hi.2, h.apart i hi.1]
  · rcases List.mem_append.mp hp with hp | hp
    · have hne : p.node seen ≠ child := fun he => hnew (he ▸ h.node_mem hp)
      rw [h.node_concat hp, h.lines_concat hp, Joining.start, node_modify_of_ne hne]
      exact h.node p hp
    · obtain rfl := List.mem_singleton.mp hp
      rw [hself, Joining.start, node_modify_self (h.size ▸ hlt), h.apart child hnew]
      have hline : (⟨form, seen.length, 1⟩ : Segment).lines
          ((seen ++ [child]).map fun i => (d.node i).value) = [(d.node child).value] := by
        simp [Segment.lines]
      rw [hline, Text.joinWith, String.intercalate_singleton]

/-- A line goes into the open segment. -/
theorem join {region : Region} {done' : List Segment} {last?' : Option Segment}
    (h : Splits d seen j done (some p)) (hn : seen.Nodup) (hlt : ∀ i ∈ seen, i < d.size)
    (hscanned : Scanned ((seen ++ [child]).map fun i => (d.node i).value) done' last?')
    (hsegments : done' ++ last?'.toList = done ++ [p.extend])
    (hregion : region = regionOf (seen ++ [child]) last?') :
    Splits d (seen ++ [child]) { j.join (p.node seen) (d.node child).value with region }
      done' last?' := by
  have hmem : p ∈ done ++ (some p).toList := by simp
  have hself : p.extend.node (seen ++ [child]) = p.node seen := h.node_concat hmem child
  refine ⟨hscanned, ?_, ?_, hregion, fun i hi => ?_, fun q hq => ?_⟩
  · rw [Joining.join, (Touches.modify _ _ _).size, h.size]
  · rw [hsegments, List.map_append, List.map_singleton, hself]
    have hkept := (h.map_node_concat child).symm
    rw [← h.kept, Option.toList_some, List.map_append, List.map_singleton,
      h.node_concat hmem] at hkept
    exact hkept
  · rw [List.mem_append, not_or] at hi
    have hne : i ≠ p.node seen := fun he => hi.1 (he ▸ h.node_mem hmem)
    rw [Joining.join, node_modify_of_ne hne, h.apart i hi.1]
  · rw [hsegments] at hq
    rcases List.mem_append.mp hq with hq | hq
    · have hq' : q ∈ done ++ (some p).toList := List.mem_append_left _ hq
      have hne : q.node seen ≠ p.node seen := by
        intro he
        have hfirst : q.first < p.first := h.scanned.segmentation.first_lt hq
        simp only [Segment.node, List.getD_eq_getElem?_getD,
          List.getElem?_eq_getElem (h.first_lt hq'), List.getElem?_eq_getElem (h.first_lt hmem),
          Option.getD_some] at he
        exact Nat.ne_of_lt hfirst ((hn.getElem_inj_iff).mp he)
      rw [h.node_concat hq', h.lines_concat hq', Joining.join, node_modify_of_ne hne]
      exact h.node q hq'
    · obtain rfl := List.mem_singleton.mp hq
      have hend : p.first + p.count = (seen.map fun i => (d.node i).value).length :=
        h.scanned.ends p rfl
      have hne : p.lines (seen.map fun i => (d.node i).value) ≠ [] := by
        have hpos := h.scanned.segmentation.starts p hmem
        rw [Segment.lines_eq_map (Nat.le_of_eq hend), Segment.places]
        simpa using Nat.ne_of_gt hpos
      rw [hself, Joining.join, node_modify_self (h.size ▸ hlt _ (h.node_mem hmem)), h.node p hmem,
        List.map_append, List.map_singleton, Segment.lines_extend hend, Text.joinWith_concat hne]
      rfl

/-- A segment that takes a line may stay open. -/
theorem stay (h : Splits d seen j done (some p)) (hn : seen.Nodup) (hlt : ∀ i ∈ seen, i < d.size)
    (hscanned : Scanned ((seen ++ [child]).map fun i => (d.node i).value) done (some p.extend)) :
    Splits d (seen ++ [child]) (j.join (p.node seen) (d.node child).value) done
      (some p.extend) := by
  have hmem : p ∈ done ++ (some p).toList := by simp
  have hself : p.extend.node (seen ++ [child]) = p.node seen := h.node_concat hmem child
  have hregion : j.region = regionOf (seen ++ [child]) (some p.extend) := by
    rw [h.region, regionOf, regionOf, hself]
    rfl
  exact h.join hn hlt hscanned rfl hregion

/-- A walk over the lines of a run goes on with the next line. -/
theorem step (h : Splits d seen j done last?) (hn : (seen ++ [child]).Nodup)
    (hlines : ∀ i ∈ seen ++ [child], d.IsLine i) :
    ∃ done' last?', Splits d (seen ++ [child]) (j.step child) done' last?' := by
  have hlt : ∀ i ∈ seen ++ [child], i < d.size := fun i hi =>
    lt_size_of_kind (by simp [(hlines i hi).1])
  have hltSeen : ∀ i ∈ seen, i < d.size := fun i hi => hlt i (List.mem_append_left _ hi)
  obtain ⟨hnseen, -, hne⟩ := List.nodup_append.mp hn
  have hnew : child ∉ seen := fun hm => hne child hm child (by simp) rfl
  have hchild : j.document.node child = d.node child := h.apart child hnew
  obtain ⟨htext, hform⟩ := hlines child (by simp)
  have hcond : (!(d.node child).isText || (d.node child).form != .line) = false := by
    simp [Content.isText, htext, hform]
  have hvalues : (seen ++ [child]).map (fun i => (d.node i).value) =
      seen.map (fun i => (d.node i).value) ++ [(d.node child).value] := by simp
  have hlength : (seen.map fun i => (d.node i).value).length = seen.length := List.length_map _
  have hscanned := h.scanned
  have hregion := h.region
  rw [Joining.step]
  simp only [hchild, hcond, Bool.false_eq_true, if_false]
  by_cases hopen : ∃ p, last? = some p ∧ p.form = .fenced
  · obtain ⟨p, rfl, hp⟩ := hopen
    simp only [regionOf, hp, if_true] at hregion
    simp only [hregion]
    split
    · next hfence =>
      exact ⟨_, _, h.join hnseen hltSeen (hvalues ▸ hscanned.closeFence hp hfence) (by simp) rfl⟩
    · next hfence =>
      exact ⟨_, _, h.stay hnseen hltSeen (hvalues ▸ hscanned.joinFence hp (by simpa using hfence))⟩
  · have hout : ∀ p, last? = some p → p.form ≠ .fenced := fun p hp hform => hopen ⟨p, hp, hform⟩
    have hdrop (hempty : (d.node child).value.isEmpty = true) :=
      h.drop (hvalues ▸ hscanned.drop hout hempty)
    have hopenFence (hempty : ¬ (d.node child).value.isEmpty = true)
        (hfence : isFence (d.node child).value = true) :=
      h.start .fenced (.fenced child) hnew (hlt child (by simp))
        (hvalues ▸ hlength ▸ hscanned.openFence hout (by simpa using hempty) hfence) rfl
    cases last? with
    | none =>
      simp only [regionOf] at hregion
      simp only [hregion]
      split
      · next hempty => exact ⟨_, _, hdrop hempty⟩
      · next hempty =>
        split
        · next hfence => exact ⟨_, _, hopenFence hempty hfence⟩
        · next hfence =>
          have hopenParagraph :=
            hscanned.openParagraph (by simpa using hempty) (by simpa using hfence)
          refine ⟨_, _, h.start .paragraph _ hnew (hlt child (by simp)) ?_ rfl⟩
          rw [hvalues, Option.toList_none, List.append_nil, ← hlength]
          exact hopenParagraph
    | some p =>
      have hp : p.form = .paragraph :=
        (hscanned.segmentation.form p (by simp)).resolve_right (hout p rfl)
      simp only [regionOf, hp, reduceCtorEq, if_false] at hregion
      simp only [hregion]
      split
      · next hempty => exact ⟨_, _, hdrop hempty⟩
      · next hempty =>
        split
        · next hfence => exact ⟨_, _, hopenFence hempty hfence⟩
        · next hfence =>
          exact ⟨_, _, h.stay hnseen hltSeen
            (hvalues ▸ hscanned.joinParagraph hp (by simpa using hempty) (by simpa using hfence))⟩

end Splits

/-! ### A run among other children -/

namespace Joining

private theorem walk_concat (d : Document) (ids : List NodeId) (i : NodeId) :
    walk d (ids ++ [i]) = (walk d ids).step i := by
  rw [walk, List.foldl_append]
  rfl

/-- A walk with more children kept before. -/
def behind (kept : List NodeId) (j : Joining) : Joining := { j with kept := kept ++ j.kept }

private theorem step_behind (kept : List NodeId) (j : Joining) (child : NodeId) :
    (j.behind kept).step child = (j.step child).behind kept := by
  obtain ⟨d, first, region⟩ := j
  by_cases hline : (!(d.node child).isText || (d.node child).form != .line) = true
  · simp only [step, behind, hline, if_true, List.append_assoc]
  · simp only [step, behind, hline]
    cases region <;> by_cases hempty : (d.node child).value.isEmpty = true <;>
      by_cases hfence : isFence (d.node child).value = true <;>
        simp [join, start, hempty, hfence]

private theorem foldl_behind (kept : List NodeId) (j : Joining) (ids : List NodeId) :
    ids.foldl step (j.behind kept) = (ids.foldl step j).behind kept := by
  induction ids generalizing j with
  | nil => rfl
  | cons i ids ih => rw [List.foldl_cons, step_behind, ih, List.foldl_cons]

/-- A walk is one walk after another where nothing is open between them or the second one starts
with a child that is no line. -/
theorem walk_append (d : Document) (ids ids' : List NodeId)
    (h : (walk d ids).region = .closed ∨
      ∀ i, ids'.head? = some i → ¬ (walk d ids).document.IsLine i) :
    (walk d (ids ++ ids')).document = (walk (walk d ids).document ids').document ∧
      (walk d (ids ++ ids')).kept =
        (walk d ids).kept ++ (walk (walk d ids).document ids').kept := by
  have happend : walk d (ids ++ ids') = ids'.foldl step (walk d ids) := List.foldl_append
  rw [happend]
  generalize walk d ids = j at h
  have hclosed (i : NodeId) (ids : List NodeId) (hi : ¬ j.document.IsLine i) :
      (i :: ids).foldl step j = (walk j.document (i :: ids)).behind j.kept := by
    rw [walk, ← foldl_behind, List.foldl_cons, List.foldl_cons, step_of_not_isLine hi,
      step_of_not_isLine (by exact hi)]
    simp [behind]
  cases ids' with
  | nil => simp [walk]
  | cons i ids' =>
    by_cases hregion : j.region = .closed
    · have hj : j = ({ document := j.document } : Joining).behind j.kept := by
        simp [behind, ← hregion]
      have hfold : (i :: ids').foldl step j = (walk j.document (i :: ids')).behind j.kept := by
        rw [walk, ← foldl_behind, ← hj]
      rw [hfold]
      exact ⟨rfl, rfl⟩
    · rw [hclosed i ids' (h.resolve_left hregion i rfl)]
      exact ⟨rfl, rfl⟩

end Joining

open Joining

private theorem isLine_congr {i : NodeId} (h : (e.node i).toContent = (d.node i).toContent) :
    e.IsLine i ↔ d.IsLine i := by
  rw [IsLine, IsLine, h]

/-- A walk over a run has a segmentation. -/
theorem splits_walk {run : List NodeId} (hn : run.Nodup) (hlines : ∀ i ∈ run, d.IsLine i) :
    ∃ done last?, Splits d run (walk d run) done last? := by
  induction run using List.reverseRecOn with
  | nil => exact ⟨[], none, .nil d⟩
  | append_singleton run i ih =>
    obtain ⟨done, last?, h⟩ := ih (List.nodup_append.mp hn).1 fun k hk => hlines k (by simp [hk])
    rw [walk_concat]
    exact h.step hn hlines

/-- Lines are all that a walk changes. -/
theorem node_walk_of_not_isLine {i : NodeId} (hi : ¬ d.IsLine i) (ids : List NodeId) :
    (walk d ids).document.node i = d.node i := by
  suffices h : (walk d ids).document.node i = d.node i ∧
      (walk d ids).region ≠ .paragraph i ∧ (walk d ids).region ≠ .fenced i from h.1
  induction ids using List.reverseRecOn with
  | nil => exact ⟨rfl, by simp [walk], by simp [walk]⟩
  | append_singleton ids child ih =>
    obtain ⟨hnode, hparagraph, hfenced⟩ := ih
    rw [walk_concat]
    have hstep := (walk d ids).stepped_step child
    generalize walk d ids = j at hstep hnode hparagraph hfenced
    generalize j.step child = j' at hstep
    cases hstep with
    | kept => exact ⟨hnode, by simp, by simp⟩
    | dropped => exact ⟨hnode, by simp, by simp⟩
    | @started form region htext _ _ hregion hline =>
      have hne : i ≠ child := by
        rintro rfl
        exact hi ((isLine_congr (congrArg _ hnode)).mp ⟨htext, hline⟩)
      refine ⟨(node_modify_of_ne hne _).trans hnode, ?_⟩
      rcases hregion with rfl | rfl <;> simp [start, Ne.symm hne]
    | @joined target region htext htarget hregion _ =>
      have hne : i ≠ target := by
        rintro rfl
        rcases htarget with htarget | htarget
        · exact hparagraph htarget
        · exact hfenced htarget
      refine ⟨(node_modify_of_ne hne _).trans hnode, ?_⟩
      rcases hregion with rfl | rfl
      · exact ⟨hparagraph, hfenced⟩
      · simp

/-- What is no line stays so. -/
theorem isLine_walk_of_not {i : NodeId} (hi : ¬ d.IsLine i) (ids : List NodeId) :
    ¬ (walk d ids).document.IsLine i := by
  rwa [isLine_congr (congrArg _ (node_walk_of_not_isLine hi ids))]

/-- Nothing is open behind children with no line as the last of them. -/
theorem region_walk {ids : List NodeId} (h : ∀ i, ids.getLast? = some i → ¬ d.IsLine i) :
    (walk d ids).region = .closed := by
  induction ids using List.reverseRecOn with
  | nil => rfl
  | append_singleton ids i _ =>
    have hi : ¬ d.IsLine i := h i (by simp)
    rw [walk_concat, step_of_not_isLine (isLine_walk_of_not hi ids)]

/-- What becomes of a run: its segments stand in its place, each in the node of its first line. -/
structure JoinsRun (d e : Document) (b : NodeId) (before run after : List NodeId)
    (parts : List Segment) : Prop where
  segmentation : Segmentation (run.map fun i => (d.node i).value) parts
  children : ∃ left right, (e.node b).children = left ++ parts.map (Segment.node run) ++ right ∧
    left.Sublist before ∧ right.Sublist after
  content : ∀ p ∈ parts, (e.node (p.node run)).toContent =
    { (d.node (p.node run)).toContent with
      form := p.form,
      value := Text.joinWith "\n" (p.lines (run.map fun i => (d.node i).value)) }
  parent : ∀ p ∈ parts, (e.node (p.node run)).parent = some b

/-- Joining the lines among the children of a node joins each run. -/
theorem joinsRun_joinAt {b : NodeId} {before run after : List NodeId}
    (hn : (d.node b).children.Nodup) (hrun : d.IsRun b before run after) :
    ∃ parts, JoinsRun d (d.joinAt b) b before run after parts := by
  have hchildren := hrun.children
  rw [hchildren] at hn
  obtain ⟨hnfirst, -, hneAfter⟩ := List.nodup_append.mp hn
  obtain ⟨hnbefore, hnrun, hneRun⟩ := List.nodup_append.mp hnfirst
  have hoff {i : NodeId} (hi : i ∈ run) : i ∉ before ∧ i ∉ after :=
    ⟨fun hm => hneRun i hm i hi rfl, fun hm => hneAfter i (by simp [hi]) i hm rfl⟩
  -- the walk up to the run
  have hfirst := passed_walk d before
  have hsame {i : NodeId} (hi : i ∈ run) : (walk d before).document.node i = d.node i :=
    hfirst.apart i (hoff hi).1
  -- the run and the walk behind it
  obtain ⟨done, last?, hsplits⟩ := splits_walk (d := (walk d before).document) hnrun fun i hi =>
    (isLine_congr (congrArg _ (hsame hi))).mpr (hrun.lines i hi)
  have hvalues : (run.map fun i => ((walk d before).document.node i).value) =
      run.map fun i => (d.node i).value := List.map_congr_left fun i hi => by rw [hsame hi]
  have hbehind : ∀ i, after.head? = some i →
      ¬ (walk (walk d before).document run).document.IsLine i := fun i hi =>
    isLine_walk_of_not (isLine_walk_of_not (hrun.last i hi) before) run
  obtain ⟨hdocument, hkept⟩ :=
    walk_append d before (run ++ after) (.inl (region_walk hrun.first))
  obtain ⟨hdocument', hkept'⟩ := walk_append (walk d before).document run after (.inr hbehind)
  have hlast := passed_walk (walk (walk d before).document run).document after
  rw [hdocument', ← List.append_assoc, ← hchildren] at hdocument
  rw [hkept', ← List.append_assoc, ← hchildren, hsplits.kept] at hkept
  have hjoined : ((d.joinAt b).node b).children = (walk d before).kept ++
      (done ++ last?.toList).map (Segment.node run) ++
        (walk (walk (walk d before).document run).document after).kept := by
    rw [children_joinAt, hkept, List.append_assoc]
  refine ⟨done ++ last?.toList, ?_, ⟨_, _, hjoined, hfirst.kept, hlast.kept⟩, fun p hp => ?_,
    fun p hp => ?_⟩
  · rw [← hvalues]
    exact hsplits.scanned.segmentation
  · have hmem := hsplits.node_mem hp
    rw [content_joinAt, hdocument, hlast.apart _ (hoff hmem).2, hsplits.node p hp, hvalues,
      hsame hmem]
  · have hmem : p.node run ∈ ((d.joinAt b).node b).children := by
      rw [hjoined]
      exact List.mem_append_left _ (List.mem_append_right _ (List.mem_map_of_mem hp))
    have hlt : p.node run < d.size :=
      lt_size_of_kind (by simp [(hrun.lines _ (hsplits.node_mem hp)).1])
    rw [(joinsAt_joinAt d b).parent _ hlt, if_pos hmem]

/-- A child that is no line stays as it is. -/
theorem stays_joinAt {b i : NodeId} (hi : i ∈ (d.node b).children) (hline : ¬ d.IsLine i) :
    i ∈ ((d.joinAt b).node b).children ∧
      ((d.joinAt b).node i).toContent = (d.node i).toContent := by
  constructor
  · by_contra hn
    exact hline ((joinsAt_joinAt d b).dropped i hi hn)
  · rw [content_joinAt, node_walk_of_not_isLine hline]

/-! ### A run in a document of trees -/

private theorem TreeShaped.settles (hd : d.TreeShaped) (h : Settles d e) : e.TreeShaped where
  closed p i hi := h.size ▸ hd.closed p i ((h.children p).subset hi)
  acyclic := h.acyclic hd.acyclic
  nodup p := (hd.nodup p).sublist (h.children p)
  unique p q i hp hq := hd.unique p q i ((h.children p).subset hp) ((h.children q).subset hq)

/-- The children of a node are the same and hold the same. -/
structure Keeps (b : NodeId) (d e : Document) : Prop where
  children : (e.node b).children = (d.node b).children
  content : ∀ i ∈ (d.node b).children, (e.node i).toContent = (d.node i).toContent
  parent : ∀ i ∈ (d.node b).children, (d.node i).parent = some b → (e.node i).parent = some b

namespace Keeps

variable {b q : NodeId} {before run after : List NodeId}

private theorem refl (b : NodeId) (d : Document) : Keeps b d d :=
  ⟨rfl, fun _ _ => rfl, fun _ _ => id⟩

private theorem trans {f : Document} (h : Keeps b d e) (h' : Keeps b e f) : Keeps b d f where
  children := h'.children.trans h.children
  content i hi := (h'.content i (h.children ▸ hi)).trans (h.content i hi)
  parent i hi hb := h'.parent i (h.children ▸ hi) (h.parent i hi hb)

private theorem tidy (h : Keeps b d e) (hb : d.Tidy b) : e.Tidy b := by
  intro i hi htext
  rw [h.children] at hi
  rw [h.content i hi] at htext ⊢
  exact hb i hi htext

private theorem isRun (h : Keeps b d e) (hrun : d.IsRun b before run after) :
    e.IsRun b before run after := by
  have hsame {i : NodeId} (hi : i ∈ before ++ run ++ after) : e.IsLine i ↔ d.IsLine i :=
    isLine_congr (h.content i (hrun.children ▸ hi))
  refine ⟨h.children.trans hrun.children, fun i hi => (hsame (by simp [hi])).mpr (hrun.lines i hi),
    fun i hi => ?_, fun i hi => ?_⟩
  · rw [hsame (by simp [List.mem_of_getLast? hi])]
    exact hrun.first i hi
  · rw [hsame (by simp [List.mem_of_head? hi])]
    exact hrun.last i hi

/-- Joining lines at another node, or again at this one, leaves its children alone. -/
theorem joinAt (hd : d.TreeShaped) (h : q ≠ b ∨ d.Tidy b) : Keeps b d (d.joinAt q) := by
  have hat := joinsAt_joinAt d q
  by_cases hq : q = b
  · subst hq
    have htidy := h.resolve_left (not_not_intro rfl)
    have hview := view_joinAt_of_tidy htidy
    have hchildren : ((d.joinAt q).node q).children = (d.node q).children :=
      congrArg Prod.snd (hview q)
    refine ⟨hchildren, fun i _ => congrArg Prod.fst (hview i), fun i hi _ => ?_⟩
    rw [hat.parent i (hd.closed q i hi), hchildren, if_pos hi]
  · have hout {i : NodeId} (hi : i ∈ (d.node b).children) : i ∉ (d.node q).children :=
      fun hm => hq (hd.unique q b i hm hi)
    refine ⟨hat.children b (Ne.symm hq), fun i hi => hat.content i (hout hi), fun i hi hb => ?_⟩
    rw [hat.parent i (hd.closed b i hi), if_neg fun hm => hout hi (hat.kept.subset hm),
      if_neg (hout hi), hb]

private theorem foldl {ids : List NodeId} (hd : d.TreeShaped) (h : b ∉ ids ∨ d.Tidy b) :
    Keeps b d (ids.foldl Document.joinAt d) := by
  induction ids generalizing d with
  | nil => exact .refl b d
  | cons q ids ih =>
    have hstep : Keeps b d (d.joinAt q) :=
      .joinAt hd (h.imp_left fun hb he => hb (by simp [he]))
    exact hstep.trans (ih (hd.settles (.joinAt d q))
      (h.imp (fun hb hm => hb (by simp [hm])) hstep.tidy))

/-- What was joined of a run is the same for documents that keep the children. -/
theorem joinsRun {d' e' : Document} {parts : List Segment} (h : Keeps b d d') (h' : Keeps b e e')
    (hrun : d.IsRun b before run after) (hjoins : JoinsRun d' e b before run after parts) :
    JoinsRun d e' b before run after parts := by
  obtain ⟨hsegmentation, ⟨left, right, hchildren, hleft, hright⟩, hcontent, hparent⟩ := hjoins
  have hmem {i : NodeId} (hi : i ∈ run) : i ∈ (d.node b).children := by simp [hrun.children, hi]
  have hvalues : (run.map fun i => (d'.node i).value) = run.map fun i => (d.node i).value :=
    List.map_congr_left fun i hi => congrArg Content.value (h.content i (hmem hi))
  rw [hvalues] at hsegmentation hcontent
  have hnode {p : Segment} (hp : p ∈ parts) : p.node run ∈ (e.node b).children := by
    rw [hchildren]
    exact List.mem_append_left _ (List.mem_append_right _ (List.mem_map_of_mem hp))
  refine ⟨hsegmentation, ⟨left, right, h'.children.trans hchildren, hleft, hright⟩, fun p hp => ?_,
    fun p hp => h'.parent _ (hnode hp) (hparent p hp)⟩
  rw [h'.content _ (hnode hp), hcontent p hp, h.content _ (hmem (hsegmentation.node_mem hp))]

end Keeps

/-- A pass over some nodes joins each run below each of them, and leaves all other children there as
they are. -/
theorem joinsRun_foldl (hd : d.TreeShaped) {ids : List NodeId} {b : NodeId} (hb : b ∈ ids) :
    (∀ before run after, d.IsRun b before run after →
      ∃ parts, JoinsRun d (ids.foldl joinAt d) b before run after parts) ∧
    ∀ i ∈ (d.node b).children, ¬ d.IsLine i → i ∈ ((ids.foldl joinAt d).node b).children ∧
      ((ids.foldl joinAt d).node i).toContent = (d.node i).toContent := by
  obtain ⟨first, rest, rfl, hfirst⟩ := List.eq_append_cons_of_mem hb
  rw [List.foldl_append, List.foldl_cons]
  have hbefore : Keeps b d (first.foldl joinAt d) := .foldl hd (.inl hfirst)
  have hd' : (first.foldl joinAt d).TreeShaped := hd.settles (.foldl first d)
  generalize first.foldl joinAt d = d' at hbefore hd'
  have hafter : Keeps b (d'.joinAt b) (rest.foldl joinAt (d'.joinAt b)) :=
    .foldl (hd'.settles (.joinAt d' b)) (.inr (joinsAt_joinAt d' b).tidy)
  constructor
  · intro before run after hrun
    obtain ⟨parts, hjoins⟩ := joinsRun_joinAt (hd'.nodup b) (hbefore.isRun hrun)
    exact ⟨parts, hbefore.joinsRun hafter hrun hjoins⟩
  · intro i hi hline
    have hi' : i ∈ (d'.node b).children := hbefore.children ▸ hi
    obtain ⟨hmem, hcontent⟩ := stays_joinAt hi' (by rwa [isLine_congr (hbefore.content i hi)])
    exact ⟨hafter.children ▸ hmem,
      (hafter.content i hmem).trans (hcontent.trans (hbefore.content i hi))⟩

/-- The values of the nodes of a run, cut at line feeds, are the lines of the run without the empty
ones outside regions. -/
theorem JoinsRun.splitAt_values {b : NodeId} {before run after : List NodeId} {parts : List Segment}
    (h : JoinsRun d e b before run after parts)
    (hvalues : ∀ i ∈ run, '\n' ∉ (d.node i).value.toList) :
    (parts.flatMap fun p => Text.splitAt '\n' (e.node (p.node run)).value) =
      (keptPlaces (run.map fun i => (d.node i).value)).map fun k =>
        (run.map fun i => (d.node i).value).getD k "" := by
  rw [← h.segmentation.kept, List.map_flatMap]
  refine List.flatMap_congr fun p hp => ?_
  have hend := h.segmentation.end_le hp
  have hlines := Segment.lines_eq_map hend
  have hne : p.lines (run.map fun i => (d.node i).value) ≠ [] := by
    rw [hlines, Segment.places]
    simpa using Nat.ne_of_gt (h.segmentation.starts p hp)
  have hvalue : (e.node (p.node run)).value =
      Text.joinWith "\n" (p.lines (run.map fun i => (d.node i).value)) := by
    rw [h.content p hp]
  rw [hvalue, Text.splitAt_joinWith hne fun v hv => ?_, hlines]
  obtain ⟨i, hi, rfl⟩ := List.mem_map.mp (List.mem_of_mem_drop (List.mem_of_mem_take hv))
  exact hvalues i hi

/-- Joining lines below a node replaces every run of lines in every block there by the parts that
its fences give; cut at line feeds, these hold the lines of the run without the empty ones outside
regions. Other children keep their place and what they hold. -/
theorem runs_joinLinesBelow (hd : d.TreeShaped) {top b : NodeId} (htop : top < d.size)
    (hb : d.Encloses top b) {before run after : List NodeId} (hrun : d.IsRun b before run after)
    (hvalues : ∀ i ∈ run, '\n' ∉ (d.node i).value.toList) :
    (∃ parts, JoinsRun d (d.joinLinesBelow top) b before run after parts ∧
      (parts.flatMap fun p => Text.splitAt '\n' ((d.joinLinesBelow top).node (p.node run)).value) =
        (keptPlaces (run.map fun i => (d.node i).value)).map fun k =>
          (run.map fun i => (d.node i).value).getD k "") ∧
    ((d.joinLinesBelow top).node b).children.Sublist (d.node b).children ∧
    ∀ i ∈ (d.node b).children, ¬ d.IsLine i → i ∈ ((d.joinLinesBelow top).node b).children ∧
      ((d.joinLinesBelow top).node i).toContent = (d.node i).toContent := by
  have hfold : d.joinLinesBelow top = (d.order d.size top).foldl joinAt d :=
    joinLinesTo_eq_foldl hd.acyclic d.size top
  obtain ⟨hruns, hothers⟩ := joinsRun_foldl hd (mem_order hd.acyclic hd.closed htop hb)
  rw [← hfold] at hruns hothers
  obtain ⟨parts, hjoins⟩ := hruns before run after hrun
  refine ⟨⟨parts, hjoins, hjoins.splitAt_values hvalues⟩, ?_, hothers⟩
  rw [hfold]
  exact (Settles.foldl _ d).children b

/-- A block below a section: a paragraph that was joined before, two lines, an empty one, a fence
that is not closed with an empty line behind it, and a nested block with another line behind it. -/
def runSample : Document where
  nodes := #[
    { kind := .action, value := "", line := 1, column := 1, children := [1] },
    { kind := .context, value := "", line := 2, column := 5, parent := some 0,
      children := [2, 3, 4, 5, 6, 7, 8, 9] },
    { kind := .text, value := "x\ny", line := 3, column := 9, form := .paragraph,
      parent := some 1 },
    { kind := .text, value := "one", line := 5, column := 9, parent := some 1 },
    { kind := .text, value := "two", line := 6, column := 9, parent := some 1 },
    { kind := .text, value := "", line := 7, column := 9, parent := some 1 },
    { kind := .text, value := "```", line := 8, column := 9, parent := some 1 },
    { kind := .text, value := "", line := 9, column := 9, parent := some 1 },
    { kind := .context, value := "", line := 10, column := 9, parent := some 1 },
    { kind := .text, value := "three", line := 11, column := 9, parent := some 1 }]
  action := some 0

/-- The run from the first line to the nested block has two parts: a paragraph and a region that
takes the empty line behind its fence. -/
theorem runs_joinLinesBelow_sample :
    (∃ parts, JoinsRun runSample (runSample.joinLinesBelow 0) 1 [2] [3, 4, 5, 6, 7] [8, 9] parts ∧
      (parts.flatMap fun p =>
        Text.splitAt '\n' ((runSample.joinLinesBelow 0).node (p.node [3, 4, 5, 6, 7])).value) =
          ["one", "two", "```", ""]) ∧
      ((runSample.joinLinesBelow 0).node 1).children = [2, 3, 6, 8, 9] ∧
      ((runSample.joinLinesBelow 0).node 2).value = "x\ny" := by
  have htree : runSample.TreeShaped := treeShaped_of_lt (by decide)
  have hb : runSample.Encloses 0 1 := .single (by decide)
  have hrun : runSample.IsRun 1 [2] [3, 4, 5, 6, 7] [8, 9] := by
    refine ⟨rfl, ?_, ?_, ?_⟩ <;> simp only [IsLine] <;> decide
  obtain ⟨⟨parts, hjoins, hlines⟩, -, hothers⟩ :=
    runs_joinLinesBelow htree (by decide) hb hrun (by decide)
  refine ⟨⟨parts, hjoins, ?_⟩, by decide +kernel, ?_⟩
  · rw [hlines]
    decide
  · have hkept := (hothers 2 (by decide) (by simp only [IsLine]; decide)).2
    exact congrArg Content.value hkept

end Document

end PromptOutline
