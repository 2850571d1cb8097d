import PromptOutline.Document.Paragraph
import PromptOutline.Proofs.Layout

/-!
# Joined lines as trees

Joining lines changes nodes in place. On a document of trees it does what `Tree.joined` does to each
tree: below every node, the lines among its children are gathered to paragraphs and fenced regions.
Every step touches only places of the tree at hand, so that the other trees stay as they are.
-/

namespace PromptOutline

namespace Tree

/-- Whether a tree is a line as it was read. -/
def isLine (t : Tree) : Bool := t.content.isText && t.content.form == .line

/-- A tree with one more line in its value. -/
def addLine (line : String) : Tree → Tree
  | node c cs => node { c with value := c.value ++ "\n" ++ line } cs

/-- A tree in another form. -/
def withForm (form : TextForm) : Tree → Tree
  | node c cs => node { c with form } cs

/-- The tree that takes the next line. -/
inductive Target where
  | closed
  | paragraph (t : Tree)
  | fenced (t : Tree)

/-- The tree of a target. -/
def Target.toList : Target → List Tree
  | closed => []
  | paragraph t => [t]
  | fenced t => [t]

/-- The state of a walk over neighbouring trees. -/
structure Gathering where
  done : List Tree := []
  target : Target := .closed

namespace Gathering

/-- The trees kept so far, in order. -/
def kept (g : Gathering) : List Tree := g.done ++ g.target.toList

/-- Take one tree. -/
def step (g : Gathering) (t : Tree) : Gathering :=
  if !t.isLine then { done := g.kept ++ [t] }
  else match g.target with
    | .fenced region =>
      let joined := region.addLine t.content.value
      if Document.isFence t.content.value then { done := g.done ++ [joined] }
      else { g with target := .fenced joined }
    | target =>
      if t.content.value.isEmpty then { done := g.kept }
      else if Document.isFence t.content.value then
        { done := g.kept, target := .fenced (t.withForm .fenced) }
      else match target with
        | .paragraph paragraph =>
          { g with target := .paragraph (paragraph.addLine t.content.value) }
        | _ => { done := g.kept, target := .paragraph (t.withForm .paragraph) }

/-- Everything that a step can do. -/
inductive Steps (g : Gathering) (t : Tree) : Gathering → Prop where
  | kept (hline : t.isLine = false) : Steps g t { done := g.kept ++ [t] }
  | dropped (hline : t.isLine = true) (hempty : t.content.value.isEmpty = true)
      (hopen : ∀ u, g.target ≠ .fenced u) : Steps g t { done := g.kept }
  | openFence (hline : t.isLine = true) (hempty : t.content.value.isEmpty = false)
      (hfence : Document.isFence t.content.value = true) (hopen : ∀ u, g.target ≠ .fenced u) :
      Steps g t { done := g.kept, target := .fenced (t.withForm .fenced) }
  | openParagraph (hline : t.isLine = true) (hempty : t.content.value.isEmpty = false)
      (hfence : Document.isFence t.content.value = false) (hclosed : g.target = .closed) :
      Steps g t { done := g.kept, target := .paragraph (t.withForm .paragraph) }
  | joinParagraph {u : Tree} (hline : t.isLine = true) (hempty : t.content.value.isEmpty = false)
      (hfence : Document.isFence t.content.value = false) (hopen : g.target = .paragraph u) :
      Steps g t { g with target := .paragraph (u.addLine t.content.value) }
  | joinFence {u : Tree} (hline : t.isLine = true)
      (hfence : Document.isFence t.content.value = false) (hopen : g.target = .fenced u) :
      Steps g t { g with target := .fenced (u.addLine t.content.value) }
  | closeFence {u : Tree} (hline : t.isLine = true)
      (hfence : Document.isFence t.content.value = true) (hopen : g.target = .fenced u) :
      Steps g t { done := g.done ++ [u.addLine t.content.value] }

/-- A step of gathering does one of the things that a step can do. -/
theorem steps_step (g : Gathering) (t : Tree) : Steps g t (g.step t) := by
  obtain ⟨done, target⟩ := g
  unfold step
  by_cases hline : t.isLine = true
  · rw [if_neg (by simp [hline])]
    cases target with
    | fenced u =>
      dsimp only
      split
      · next hfence => exact .closeFence hline hfence rfl
      · next hfence => exact .joinFence hline (by simpa using hfence) rfl
    | closed =>
      dsimp only
      split
      · next hempty => exact .dropped hline hempty (by simp)
      · next hempty =>
        split
        · next hfence => exact .openFence hline (by simpa using hempty) hfence (by simp)
        · next hfence =>
          exact .openParagraph hline (by simpa using hempty) (by simpa using hfence) rfl
    | paragraph u =>
      dsimp only
      split
      · next hempty => exact .dropped hline hempty (by simp)
      · next hempty =>
        split
        · next hfence => exact .openFence hline (by simpa using hempty) hfence (by simp)
        · next hfence =>
          exact .joinParagraph hline (by simpa using hempty) (by simpa using hfence) rfl
  · rw [if_pos (by simp [hline])]
    exact .kept (by simpa using hline)

end Gathering

/-- Neighbouring trees with their lines gathered. -/
def gather (ts : List Tree) : List Tree := (ts.foldl Gathering.step {}).kept

mutual

/-- A tree with lines joined everywhere below it. -/
def joined : Tree → Tree
  | node c cs => node c (gather (joinedBelow cs))

/-- Neighbouring trees with lines joined below each that is no text. -/
def joinedBelow : List Tree → List Tree
  | [] => []
  | t :: ts => (if t.content.isText then t else joined t) :: joinedBelow ts

end

/-- Lines are joined below each of some trees, texts aside. -/
theorem joinedBelow_eq_map (ts : List Tree) :
    joinedBelow ts = ts.map fun t => if t.content.isText then t else t.joined := by
  induction ts with
  | nil => rfl
  | cons t ts ih => rw [joinedBelow, ih, List.map_cons]

end Tree

namespace Document

/-! ### What a change touches -/

/-- A node that is modified is what the modification makes of it. -/
theorem node_modify_self {d : Document} {id : NodeId} (h : id < d.size) (f : Node → Node) :
    (d.modify id f).node id = f (d.node id) := by
  have hget : d.nodes[id]? = some (d.nodes.getD id default) := by
    simp [Array.getElem?_eq_getElem h, Array.getD_eq_getD_getElem?]
  simp only [node, modify, Array.getElem?_modify, if_pos, hget, Option.map_some, Option.getD_some]

/-- Other nodes than the modified one stay as they are. -/
theorem node_modify_of_ne {d : Document} {id i : NodeId} (h : i ≠ id) (f : Node → Node) :
    (d.modify id f).node i = d.node i := by
  simp only [node, modify, Array.getElem?_modify, if_neg (Ne.symm h)]

/-- `Touches d e ids`: the documents differ in nothing but parents and what stands at these
places. -/
structure Touches (d e : Document) (ids : List NodeId) : Prop where
  size : e.size = d.size
  root : ∀ s, e.root? s = d.root? s
  view : ∀ i, i ∉ ids → e.view i = d.view i

namespace Touches

variable {d e f : Document} {ids ids' : List NodeId}

private theorem refl (d : Document) (ids : List NodeId) : Touches d d ids :=
  ⟨rfl, fun _ => rfl, fun _ _ => rfl⟩

private theorem trans (h : Touches d e ids) (h' : Touches e f ids) : Touches d f ids where
  size := h'.size.trans h.size
  root s := (h'.root s).trans (h.root s)
  view i hi := (h'.view i hi).trans (h.view i hi)

private theorem mono (h : Touches d e ids) (hsub : ids ⊆ ids') : Touches d e ids' where
  size := h.size
  root := h.root
  view i hi := h.view i fun hm => hi (hsub hm)

/-- Modifying a node touches that node only. -/
theorem modify (d : Document) (id : NodeId) (f : Node → Node) : Touches d (d.modify id f) [id] where
  size := Array.size_modify ..
  root s := by cases s <;> rfl
  view i hi := by
    rw [Document.view, Document.view, node_modify_of_ne (by simpa using hi)]

/-- A change of parents touches nothing. -/
theorem modify_parent (d : Document) (id : NodeId) (parent : Option NodeId) :
    Touches d (d.modify id fun n => { n with parent }) [] where
  size := Array.size_modify ..
  root s := by cases s <;> rfl
  view i _ := by
    by_cases hi : i = id
    · subst hi
      simp only [Document.view, node, Document.modify, Array.getElem?_modify, if_pos]
      cases d.nodes[i]? <;> rfl
    · rw [Document.view, Document.view, node_modify_of_ne hi]

/-- Trees elsewhere stay as they are. -/
theorem spans {roots : List NodeId} {ts : List Tree} (h : Touches d e ids')
    (hspans : Spans d roots ts ids) (hdisjoint : ids.Disjoint ids') : Spans e roots ts ids :=
  hspans.congr h.size fun _ hi => h.view _ (hdisjoint hi)

end Touches

/-- What is known of a single tree. -/
theorem Spans.single {d : Document} {id : NodeId} {t : Tree} {ids : List NodeId}
    (h : Spans d [id] [t] ids) :
    id < d.size ∧ (d.node id).toContent = t.content ∧
      ∃ below, Spans d (d.node id).children t.children below ∧ ids = id :: below := by
  cases h with
  | cons hid hc hbelow hbeside =>
    cases hbeside
    exact ⟨hid, hc, _, hbelow, by simp⟩

/-- A change of what the top node of a tree holds. -/
theorem Spans.modify {d : Document} {id : NodeId} {t : Tree} {ids : List NodeId}
    (h : Spans d [id] [t] ids) (hn : ids.Nodup) (f : Node → Node)
    (hf : (f (d.node id)).children = (d.node id).children) :
    Spans (d.modify id f) [id] [.node (f (d.node id)).toContent t.children] ids := by
  obtain ⟨hid, -, below, hbelow, rfl⟩ := h.single
  have htouch := Touches.modify d id f
  have hsame := htouch.spans hbelow (by simpa using (List.nodup_cons.mp hn).1)
  have hspans : Spans (d.modify id f) [id] [.node (f (d.node id)).toContent t.children]
      (id :: (below ++ [])) := by
    refine .cons (htouch.size ▸ hid) (by rw [node_modify_self hid]) ?_ .nil
    rw [node_modify_self hid, hf]
    exact hsame
  rwa [List.append_nil] at hspans

/-! ### One walk over children -/

/-- The nodes kept by a walk, with the trees that stand below them: `ids` are their places. -/
inductive Follows (d : Document) : List NodeId → Region → Tree.Gathering → List NodeId → Prop where
  | closed {kept ids : List NodeId} {done : List Tree} (hdone : Spans d kept done ids) :
      Follows d kept .closed { done } ids
  | paragraph {kept ids below : List NodeId} {id : NodeId} {done : List Tree} {t : Tree}
      (hdone : Spans d kept done ids) (ht : Spans d [id] [t] below) :
      Follows d (kept ++ [id]) (.paragraph id) { done, target := .paragraph t } (ids ++ below)
  | fenced {kept ids below : List NodeId} {id : NodeId} {done : List Tree} {t : Tree}
      (hdone : Spans d kept done ids) (ht : Spans d [id] [t] below) :
      Follows d (kept ++ [id]) (.fenced id) { done, target := .fenced t } (ids ++ below)

private theorem Follows.spans {d : Document} {kept ids : List NodeId} {region : Region}
    {g : Tree.Gathering} (h : Follows d kept region g ids) : Spans d kept g.kept ids := by
  cases h with
  | closed hdone => simpa [Tree.Gathering.kept, Tree.Target.toList] using hdone
  | paragraph hdone ht => exact hdone.append ht
  | fenced hdone ht => exact hdone.append ht

/-- A change of what the last of some trees holds leaves the trees before it as they are. -/
theorem spans_modify_last {d : Document} {kept ids below : List NodeId} {id : NodeId}
    {ts : List Tree} {t u : Tree} (hkept : Spans d kept ts ids) (ht : Spans d [id] [t] below)
    (hn : (ids ++ below).Nodup) (f : Node → Node)
    (hf : (f (d.node id)).children = (d.node id).children)
    (hu : u = .node (f (d.node id)).toContent t.children) :
    Spans (d.modify id f) kept ts ids ∧ Spans (d.modify id f) [id] [u] below ∧
      Touches d (d.modify id f) (ids ++ below) := by
  obtain ⟨-, hnbelow, hne⟩ := List.nodup_append.mp hn
  obtain ⟨-, -, cs, -, rfl⟩ := ht.single
  have htouch := Touches.modify d id f
  refine ⟨htouch.spans hkept ?_, hu ▸ ht.modify hnbelow f hf, htouch.mono (by simp)⟩
  intro i hi hm
  exact hne i hi id List.mem_cons_self (List.mem_singleton.mp hm)

private theorem spans_join {j : Joining} {kept ids below : List NodeId} {id : NodeId}
    {ts : List Tree} {t : Tree} (hkept : Spans j.document kept ts ids)
    (ht : Spans j.document [id] [t] below) (hn : (ids ++ below).Nodup) (line : String) :
    Spans (j.join id line).document kept ts ids ∧
      Spans (j.join id line).document [id] [t.addLine line] below ∧
      Touches j.document (j.join id line).document (ids ++ below) := by
  have hcontent := ht.single.2.1
  refine spans_modify_last hkept ht hn _ rfl ?_
  cases t with
  | node c cs =>
    obtain rfl : (j.document.node id).toContent = c := hcontent
    rfl

private theorem spans_start {j : Joining} {kept ids below : List NodeId} {id : NodeId}
    {ts : List Tree} {t : Tree} (hkept : Spans j.document kept ts ids)
    (ht : Spans j.document [id] [t] below) (hn : (ids ++ below).Nodup) (form : TextForm)
    (region : Region) :
    Spans (j.start id form region).document kept ts ids ∧
      Spans (j.start id form region).document [id] [t.withForm form] below ∧
      Touches j.document (j.start id form region).document (ids ++ below) := by
  have hcontent := ht.single.2.1
  refine spans_modify_last hkept ht hn _ rfl ?_
  cases t with
  | node c cs =>
    obtain rfl : (j.document.node id).toContent = c := hcontent
    rfl

/-- The walk and its view in trees take one more child in the same way. -/
theorem Follows.step {j : Joining} {g : Tree.Gathering} {ids below : List NodeId} {child : NodeId}
    {t : Tree} (h : Follows j.document j.kept j.region g ids)
    (ht : Spans j.document [child] [t] below) (hn : (ids ++ below).Nodup) :
    ∃ ids', Follows (j.step child).document (j.step child).kept (j.step child).region (g.step t)
        ids' ∧
      ids'.Sublist (ids ++ below) ∧
      Touches j.document (j.step child).document (ids ++ below) := by
  obtain ⟨d, kept, region⟩ := j
  have hcontent : (d.node child).toContent = t.content := ht.single.2.1
  have hline : (!(d.node child).isText || (d.node child).form != .line) = !t.isLine := by
    rw [Tree.isLine, ← hcontent, Bool.not_and]
    rfl
  have hvalue : (d.node child).value = t.content.value := by rw [← hcontent]
  have hsame := Touches.refl d (ids ++ below)
  have hids : ids.Sublist (ids ++ below) := List.sublist_append_left ids below
  have hspans : Spans d kept g.kept ids := h.spans
  have hfresh (form : TextForm) (region : Region) :=
    spans_start (j := ⟨d, kept, region⟩) hspans ht hn form region
  simp only [Joining.step, hline, hvalue, Tree.Gathering.step]
  by_cases hl : t.isLine = true
  · simp only [hl, Bool.not_true, Bool.false_eq_true, if_false]
    have hnopen : ids.Nodup := (List.nodup_append.mp hn).1
    cases h with
    | closed hdone =>
      dsimp only
      split
      · exact ⟨ids, .closed hspans, hids, hsame⟩
      · split
        · obtain ⟨hk, hc, htouch⟩ := hfresh .fenced (.fenced child)
          exact ⟨ids ++ below, .fenced hk hc, List.Sublist.refl _, htouch⟩
        · obtain ⟨hk, hc, htouch⟩ := hfresh .paragraph (.paragraph child)
          exact ⟨ids ++ below, .paragraph hk hc, List.Sublist.refl _, htouch⟩
    | @paragraph kept ids₀ below₀ id done u hdone hopen =>
      dsimp only
      split
      · exact ⟨_, .closed hspans, hids, hsame⟩
      · split
        · obtain ⟨hk, hc, htouch⟩ := hfresh .fenced (.fenced child)
          exact ⟨_, .fenced hk hc, List.Sublist.refl _, htouch⟩
        · obtain ⟨hk, hc, htouch⟩ := spans_join (j := ⟨d, kept ++ [id], .paragraph id⟩) hdone hopen
            hnopen t.content.value
          exact ⟨ids₀ ++ below₀, .paragraph hk hc, hids, htouch.mono hids.subset⟩
    | @fenced kept ids₀ below₀ id done u hdone hopen =>
      dsimp only
      obtain ⟨hk, hc, htouch⟩ := spans_join (j := ⟨d, kept ++ [id], .fenced id⟩) hdone hopen
        hnopen t.content.value
      split
      · exact ⟨ids₀ ++ below₀, .closed (hk.append hc), hids, htouch.mono hids.subset⟩
      · exact ⟨ids₀ ++ below₀, .fenced hk hc, hids, htouch.mono hids.subset⟩
  · simp only [hl, Bool.not_false, if_true]
    exact ⟨ids ++ below, .closed (h.spans.append ht), List.Sublist.refl _, hsame⟩

/-- The walk and its view in trees take any number of children in the same way. -/
theorem Follows.foldl {j : Joining} {g : Tree.Gathering} {roots ids rest : List NodeId}
    {ts : List Tree} (h : Follows j.document j.kept j.region g ids)
    (hrest : Spans j.document roots ts rest) (hn : (ids ++ rest).Nodup) :
    ∃ ids', Follows (roots.foldl Joining.step j).document (roots.foldl Joining.step j).kept
        (roots.foldl Joining.step j).region (ts.foldl Tree.Gathering.step g) ids' ∧
      ids'.Sublist (ids ++ rest) ∧
      Touches j.document (roots.foldl Joining.step j).document (ids ++ rest) := by
  induction ts generalizing j g roots ids rest with
  | nil =>
    cases hrest
    exact ⟨ids, h, List.sublist_append_left ids [], Touches.refl _ _⟩
  | cons t ts ih =>
    obtain _ | ⟨id, roots⟩ := roots
    · cases hrest
    · obtain ⟨below, beside, ht, hbeside, rfl⟩ := hrest.uncons
      rw [← List.append_assoc] at hn ⊢
      obtain ⟨hnfirst, -, hne⟩ := List.nodup_append.mp hn
      obtain ⟨ids', hstep, hsub, htouch⟩ := h.step ht hnfirst
      have hbeside' := htouch.spans hbeside fun i hi hm => hne i hm i hi rfl
      have hsub' : (ids' ++ beside).Sublist (ids ++ below ++ beside) := hsub.append_right beside
      obtain ⟨last, hlast, hsublast, htouchlast⟩ := ih hstep hbeside' (hn.sublist hsub')
      exact ⟨last, hlast, hsublast.trans hsub',
        (htouch.mono (by simp)).trans (htouchlast.mono hsub'.subset)⟩

private theorem touches_parents (parent : Option NodeId) (ids : List NodeId) (d : Document) :
    Touches d (ids.foldl (fun d id => d.modify id fun n => { n with parent }) d) [] := by
  induction ids generalizing d with
  | nil => exact Touches.refl d []
  | cons id ids ih => exact (Touches.modify_parent d id parent).trans (ih _)

/-- A node with other children differs in nothing else. -/
theorem touches_replaceChildren (d : Document) (id : NodeId) (children : List NodeId) :
    Touches d (d.replaceChildren id children) [id] ∧
      (id < d.size →
        (d.replaceChildren id children).view id = ((d.node id).toContent, children)) := by
  let released := (d.node id).children.foldl
    (fun d i => d.modify i fun n => { n with parent := none }) d
  let claimed := children.foldl
    (fun d i => d.modify i fun n => { n with parent := some id }) released
  have hclaimed : Touches d claimed [] :=
    (touches_parents none _ d).trans (touches_parents (some id) children released)
  have heq : d.replaceChildren id children = claimed.modify id fun n => { n with children } := rfl
  rw [heq]
  refine ⟨(hclaimed.mono (by simp)).trans (Touches.modify claimed id _), fun hid => ?_⟩
  have hview := (Prod.ext_iff.mp (hclaimed.view id (by simp))).1
  rw [view, node_modify_self (hclaimed.size ▸ hid)]
  exact Prod.ext hview rfl

/-- Joining the lines among the children of a node gathers the trees below it. -/
theorem spans_joinChildren {d : Document} {id : NodeId} {children below : List NodeId}
    {ts : List Tree} (hid : id < d.size) (hchildren : Spans d children ts below)
    (hn : (id :: below).Nodup) :
    ∃ ids, Spans (d.joinChildren id children) [id]
        [.node (d.node id).toContent (Tree.gather ts)] (id :: ids) ∧
      ids.Sublist below ∧ Touches d (d.joinChildren id children) (id :: below) := by
  obtain ⟨hnotMem, hnbelow⟩ := List.nodup_cons.mp hn
  obtain ⟨ids, hfollows, hsub, htouch⟩ :=
    Follows.foldl (j := { document := d }) (.closed .nil) hchildren hnbelow
  generalize hj : children.foldl Joining.step { document := d } = j at hfollows htouch
  have heq : d.joinChildren id children = j.document.replaceChildren id j.kept := by
    rw [joinChildren, hj]
  rw [heq]
  obtain ⟨hreplace, hview⟩ := touches_replaceChildren j.document id j.kept
  obtain ⟨hcontent, hkept⟩ := Prod.ext_iff.mp (hview (htouch.size ▸ hid))
  have hself : (j.document.node id).toContent = (d.node id).toContent :=
    (Prod.ext_iff.mp (htouch.view id hnotMem)).1
  have hspans := hreplace.spans hfollows.spans fun i hi hm =>
    hnotMem (List.mem_singleton.mp hm ▸ hsub.subset hi)
  refine ⟨ids, ?_, hsub, ?_⟩
  · have hcons : Spans (j.document.replaceChildren id j.kept) [id]
        [.node (d.node id).toContent (Tree.gather ts)] (id :: (ids ++ [])) := by
      refine .cons (hreplace.size ▸ htouch.size ▸ hid) (hcontent.trans hself) ?_ .nil
      rw [show ((j.document.replaceChildren id j.kept).node id).children = j.kept from hkept]
      exact hspans
    rwa [List.append_nil] at hcons
  · exact (htouch.mono (List.subset_cons_self id below)).trans (hreplace.mono (by simp))

/-! ### Whole documents -/

/-- `Rewrites op F n`: on a tree of at most `n` nodes the change `op` makes the tree that `F` says
and touches no other place. -/
def Rewrites (op : Document → NodeId → Document) (F : Tree → Tree) (n : Nat) : Prop :=
  ∀ (d : Document) (id : NodeId) (t : Tree) (ids : List NodeId), Spans d [id] [t] ids →
    ids.Nodup → ids.length ≤ n →
    ∃ ids', Spans (op d id) [id] [F t] ids' ∧ ids'.Sublist ids ∧ Touches d (op d id) ids

/-- Changes of neighbouring trees, one after the other. -/
theorem Rewrites.foldl {op : Document → NodeId → Document} {F : Tree → Tree} {n : Nat}
    (hop : Rewrites op F n) {d : Document} {roots ids : List NodeId} {ts : List Tree}
    (h : Spans d roots ts ids) (hn : ids.Nodup) (hlen : ids.length ≤ n) :
    ∃ ids', Spans (roots.foldl op d) roots (ts.map F) ids' ∧ ids'.Sublist ids ∧
      Touches d (roots.foldl op d) ids := by
  induction ts generalizing d roots ids with
  | nil =>
    cases h
    exact ⟨[], .nil, List.Sublist.refl _, Touches.refl d []⟩
  | cons t ts ih =>
    obtain _ | ⟨id, roots⟩ := roots
    · cases h
    · obtain ⟨below, beside, ht, hbeside, rfl⟩ := h.uncons
      rw [List.length_append] at hlen
      obtain ⟨hnbelow, hnbeside, hne⟩ := List.nodup_append.mp hn
      obtain ⟨below', ht', hsub, htouch⟩ := hop d id t below ht hnbelow (by omega)
      have hbeside' := htouch.spans hbeside fun i hi hm => hne i hm i hi rfl
      obtain ⟨beside', hts, hsub', htouch'⟩ := ih hbeside' hnbeside (by omega)
      have hfirst := htouch'.spans ht' fun i hi hm => hne i (hsub.subset hi) i hm rfl
      exact ⟨below' ++ beside', hfirst.append hts, hsub.append hsub',
        (htouch.mono (by simp)).trans (htouch'.mono (by simp))⟩

/-- Joining lines below a node, to a depth that no branch of its tree exceeds, joins its tree. -/
theorem rewrites_joinLinesTo (depth : Nat) : Rewrites (joinLinesTo depth) Tree.joined depth := by
  induction depth with
  | zero =>
    intro d id t ids h _ hlen
    obtain ⟨-, -, below, -, rfl⟩ := h.single
    simp at hlen
  | succ depth ih =>
    intro d id t ids h hn hlen
    obtain ⟨hid, hcontent, below, hbelow, rfl⟩ := h.single
    obtain ⟨hnotMem, hnbelow⟩ := List.nodup_cons.mp hn
    have hop : Rewrites
        (fun d child => if (d.node child).isText then d else joinLinesTo depth d child)
        (fun t => if t.content.isText then t else t.joined) depth := by
      intro d id t ids h hn hlen
      have htext : (d.node id).isText = t.content.isText := by rw [← h.single.2.1]
      simp only [htext]
      split
      · exact ⟨ids, h, List.Sublist.refl _, Touches.refl d ids⟩
      · exact ih d id t ids h hn hlen
    obtain ⟨below', hspans, hsub, htouch⟩ := hop.foldl hbelow hnbelow (by simpa using hlen)
    rw [joinLinesTo]
    generalize (d.node id).children.foldl
      (fun d child => if (d.node child).isText then d else joinLinesTo depth d child) d = e
        at hspans htouch
    have hself : (e.node id).toContent = t.content :=
      (Prod.ext_iff.mp (htouch.view id hnotMem)).1.trans hcontent
    have hn' : (id :: below').Nodup := hn.sublist (hsub.cons_cons id)
    obtain ⟨ids, hjoined, hsub', htouch'⟩ := spans_joinChildren (htouch.size ▸ hid) hspans hn'
    refine ⟨id :: ids, ?_, (hsub'.trans hsub).cons_cons id, ?_⟩
    · rw [hself, ← Tree.joinedBelow_eq_map] at hjoined
      cases t
      exact hjoined
    · exact (htouch.mono (List.subset_cons_self id below)).trans
        (htouch'.mono (hsub.cons_cons id).subset)

/-- Joining the lines of a document of trees joins every tree. -/
theorem trees_joinLines {d : Document} {ts : List Tree} {ids : List NodeId}
    (h : Spans d d.roots ts ids) (hn : ids.Nodup) : d.joinLines.trees = ts.map Tree.joined := by
  -- a tree has no more nodes than the document, so the walk reaches the end of every branch
  have hop : Rewrites joinLinesBelow Tree.joined ids.length := fun d id t ids h hn _ =>
    rewrites_joinLinesTo d.size d id t ids h hn (h.length_le hn)
  obtain ⟨ids', hspans, hsub, htouch⟩ := hop.foldl h hn (Nat.le_refl _)
  have hroots : d.joinLines.roots = d.roots := by
    rw [roots, roots]
    exact List.filterMap_congr fun s _ => htouch.root s
  rw [trees, hroots]
  exact hspans.tree (hn.sublist hsub)

end Document

end PromptOutline
