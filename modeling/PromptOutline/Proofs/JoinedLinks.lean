import Mathlib.Logic.Relation
import PromptOutline.Proofs.Links

/-!
# Links of joined lines

Joining lines changes the values and forms of texts and leaves out children that went into others.
On a linked document it touches nothing else: the links still agree, every child list is part of the
one before, and what is left out is a text without a parent. Behind it no text below a section is a
line any more, and none is empty.
-/

namespace PromptOutline

/-- The kind of a node and the place of its token. -/
def Content.place (c : Content) : TokenKind × Nat × Nat := (c.kind, c.line, c.column)

namespace Document

variable {d e f : Document}

/-- Nodes at the same place are of the same kind. -/
theorem kind_of_place {i : NodeId} (h : (e.node i).place = (d.node i).place) :
    (e.node i).kind = (d.node i).kind :=
  congrArg Prod.fst h

/-- Texts that are no lines hold something. -/
def Filled (d : Document) : Prop :=
  ∀ i, (d.node i).kind = .text → (d.node i).form ≠ .line → (d.node i).value ≠ ""

/-- There is no line among the children of a node. -/
def Tidy (d : Document) (p : NodeId) : Prop :=
  ∀ i ∈ (d.node p).children, (d.node i).kind = .text → (d.node i).form ≠ .line

/-- Texts have no children. -/
def TextLeaves (d : Document) : Prop := ∀ i, (d.node i).kind = .text → (d.node i).children = []

/-! ### Values and forms -/

/-- Documents that differ in nothing but the values and forms of texts. -/
structure Recasts (d e : Document) : Prop where
  size : e.size = d.size
  root : ∀ s, e.root? s = d.root? s
  parent : ∀ i, (e.node i).parent = (d.node i).parent
  children : ∀ i, (e.node i).children = (d.node i).children
  place : ∀ i, (e.node i).place = (d.node i).place
  value : ∀ i, (d.node i).kind ≠ .text → (e.node i).value = (d.node i).value
  filled : d.Filled → e.Filled

namespace Recasts

private theorem refl (d : Document) : Recasts d d :=
  ⟨rfl, fun _ => rfl, fun _ => rfl, fun _ => rfl, fun _ => rfl, fun _ _ => rfl, id⟩

private theorem trans (h : Recasts d e) (h' : Recasts e f) : Recasts d f where
  size := h'.size.trans h.size
  root s := (h'.root s).trans (h.root s)
  parent i := (h'.parent i).trans (h.parent i)
  children i := (h'.children i).trans (h.children i)
  place i := (h'.place i).trans (h.place i)
  value i hi := (h'.value i (by rwa [kind_of_place (h.place i)])).trans (h.value i hi)
  filled hd := h'.filled (h.filled hd)

/-- A text with another value or form, which holds something if it is no line. -/
theorem modify {i : NodeId} (hi : i < d.size) (htext : (d.node i).kind = .text) {f : Node → Node}
    (hparent : (f (d.node i)).parent = (d.node i).parent)
    (hchildren : (f (d.node i)).children = (d.node i).children)
    (hplace : (f (d.node i)).place = (d.node i).place) (hvalue : (f (d.node i)).value ≠ "") :
    Recasts d (d.modify i f) := by
  have hnode (k : NodeId) : k = i ∧ (d.modify i f).node k = f (d.node i) ∨
      (d.modify i f).node k = d.node k := by
    by_cases hk : k = i
    · exact .inl ⟨hk, by rw [hk, node_modify_self hi]⟩
    · exact .inr (node_modify_of_ne hk f)
  refine ⟨(Touches.modify d i f).size, (Touches.modify d i f).root, fun k => ?_, fun k => ?_,
    fun k => ?_, fun k hk => ?_, fun hd k hk hform => ?_⟩ <;>
    obtain ⟨rfl, hk'⟩ | hk' := hnode k
  · rw [hk', hparent]
  · rw [hk']
  · rw [hk', hchildren]
  · rw [hk']
  · rw [hk', hplace]
  · rw [hk']
  · exact absurd htext hk
  · rw [hk']
  · rw [hk']
    exact hvalue
  · rw [hk'] at hk hform ⊢
    exact hd k hk hform

end Recasts

/-! ### One walk over children -/

/-- Everything that a walk can do with one child. -/
inductive Joining.Stepped (j : Joining) (child : NodeId) : Joining → Prop where
  | kept (hline : (j.document.node child).kind = .text → (j.document.node child).form ≠ .line) :
      Stepped j child { j with kept := j.kept ++ [child], region := .closed }
  | dropped (htext : (j.document.node child).kind = .text)
      (hline : (j.document.node child).form = .line) :
      Stepped j child { j with region := .closed }
  | started {form : TextForm} {region : Region} (htext : (j.document.node child).kind = .text)
      (hvalue : (j.document.node child).value ≠ "") (hform : form ≠ .line)
      (hregion : region = .paragraph child ∨ region = .fenced child)
      (hline : (j.document.node child).form = .line) :
      Stepped j child (j.start child form region)
  | joined {target : NodeId} {region : Region} (htext : (j.document.node child).kind = .text)
      (htarget : j.region = .paragraph target ∨ j.region = .fenced target)
      (hregion : region = j.region ∨ region = .closed)
      (hline : (j.document.node child).form = .line) :
      Stepped j child { j.join target (j.document.node child).value with region }

/-- A step of joining does one of the things that a step can do. -/
theorem Joining.stepped_step (j : Joining) (child : NodeId) : Stepped j child (j.step child) := by
  obtain ⟨d, kept, region⟩ := j
  by_cases hline : (d.node child).kind = .text ∧ (d.node child).form = .line
  · obtain ⟨htext, hform⟩ := hline
    have hcond : (!(d.node child).isText || (d.node child).form != .line) = false := by
      simp [Content.isText, htext, hform]
    have hstart (hempty : ¬ (d.node child).value.isEmpty = true) :
        (d.node child).value ≠ "" := by simpa using hempty
    simp only [step, hcond, Bool.false_eq_true, if_false]
    cases region with
    | fenced target =>
      dsimp only
      split
      · exact .joined htext (.inr rfl) (.inr rfl) hform
      · exact .joined htext (.inr rfl) (.inl rfl) hform
    | closed =>
      dsimp only
      split
      · exact .dropped htext hform
      · next hempty =>
        split
        · exact .started htext (hstart hempty) (by simp) (.inr rfl) hform
        · exact .started htext (hstart hempty) (by simp) (.inl rfl) hform
    | paragraph target =>
      dsimp only
      split
      · exact .dropped htext hform
      · next hempty =>
        split
        · exact .started htext (hstart hempty) (by simp) (.inr rfl) hform
        · exact .joined htext (.inl rfl) (.inl rfl) hform
  · have hcond : (!(d.node child).isText || (d.node child).form != .line) = true := by
      simpa [Content.isText, imp_iff_not_or] using hline
    simp only [step, hcond, if_true]
    exact .kept fun htext hform => hline ⟨htext, hform⟩

/-- What holds of a walk over the children `seen`: only texts among them were changed or left out,
and no line is kept. -/
structure Walked (d : Document) (seen : List NodeId) (j : Joining) : Prop where
  recasts : Recasts d j.document
  apart : ∀ i, i ∉ seen → j.document.node i = d.node i
  kept : j.kept.Sublist seen
  dropped : ∀ i ∈ seen, i ∉ j.kept → (d.node i).kind = .text
  target : ∀ i, j.region = .paragraph i ∨ j.region = .fenced i →
    i ∈ j.kept ∧ (d.node i).kind = .text
  tidy : ∀ i ∈ j.kept, (d.node i).kind = .text → (j.document.node i).form ≠ .line

namespace Walked

variable {seen : List NodeId} {j : Joining}

private theorem start (d : Document) : Walked d [] { document := d } where
  recasts := .refl d
  apart _ _ := rfl
  kept := List.Sublist.refl _
  dropped i hi := by cases hi
  target i hi := by rcases hi with hi | hi <;> cases hi
  tidy i hi := by cases hi

private theorem step (h : Walked d seen j) {child : NodeId} (hnew : child ∉ seen)
    (hlt : child < d.size)
    (hsizes : ∀ i ∈ seen, i < d.size) : Walked d (seen ++ [child]) (j.step child) := by
  have hchild : j.document.node child = d.node child := h.apart child hnew
  have hkept : j.kept.Sublist (seen ++ [child]) := h.kept.trans (List.sublist_append_left _ _)
  have hapart {i : NodeId} (hi : i ∉ seen ++ [child]) : i ∉ seen ∧ i ≠ child := by simpa using hi
  have hdropped (htext : (d.node child).kind = .text) :
      ∀ i ∈ seen ++ [child], i ∉ j.kept → (d.node i).kind = .text := by
    intro i hi hn
    rcases List.mem_append.mp hi with hi | hi
    · exact h.dropped i hi hn
    · rwa [List.mem_singleton.mp hi]
  have hdropped' : ∀ i ∈ seen ++ [child], i ∉ j.kept ++ [child] → (d.node i).kind = .text := by
    intro i hi hn
    rw [List.mem_append, not_or] at hn
    exact h.dropped i ((List.mem_append.mp hi).resolve_right hn.2) hn.1
  have hclosed (kept : List NodeId) (i : NodeId)
      (hi : Region.closed = .paragraph i ∨ Region.closed = .fenced i) :
      i ∈ kept ∧ (d.node i).kind = .text := by
    rcases hi with hi | hi <;> cases hi
  have hstep := j.stepped_step child
  generalize j.step child = j' at hstep
  cases hstep with
  | kept hline =>
    refine ⟨h.recasts, fun i hi => h.apart i (hapart hi).1, h.kept.append_right _, hdropped',
      hclosed _, fun i hi htext => ?_⟩
    rcases List.mem_append.mp hi with hi | hi
    · exact h.tidy i hi htext
    · rw [List.mem_singleton.mp hi] at htext ⊢
      exact hline (by rwa [hchild])
  | dropped htext =>
    rw [hchild] at htext
    exact ⟨h.recasts, fun i hi => h.apart i (hapart hi).1, hkept, hdropped htext, hclosed _, h.tidy⟩
  | @started form region htext hvalue hform hregion _ =>
    have hsize : child < j.document.size := h.recasts.size ▸ hlt
    have hrecasts : Recasts j.document (j.start child form region).document :=
      .modify hsize htext rfl rfl rfl hvalue
    rw [hchild] at htext
    refine ⟨h.recasts.trans hrecasts, fun i hi => ?_, h.kept.append_right _, hdropped',
      fun i hi => ?_, fun i hi hi' => ?_⟩
    · rw [Joining.start, node_modify_of_ne (hapart hi).2]
      exact h.apart i (hapart hi).1
    · have hi : region = .paragraph i ∨ region = .fenced i := hi
      obtain rfl : i = child := by
        rcases hregion with rfl | rfl <;> rcases hi with hi | hi <;> cases hi <;> rfl
      exact ⟨by simp [Joining.start], htext⟩
    · by_cases he : i = child
      · rw [he, Joining.start, node_modify_self hsize]
        exact hform
      · rw [Joining.start, node_modify_of_ne he]
        refine h.tidy i ?_ hi'
        simpa [Joining.start, he] using hi
  | @joined target region htext htarget hregion =>
    obtain ⟨hmem, htargetText⟩ := h.target target htarget
    have hseen : target ∈ seen := h.kept.subset hmem
    have hsize : target < j.document.size := h.recasts.size ▸ hsizes target hseen
    have htargetKind : (j.document.node target).kind = .text :=
      (kind_of_place (h.recasts.place target)).trans htargetText
    have hrecasts : Recasts j.document (j.join target (j.document.node child).value).document :=
      .modify hsize htargetKind rfl rfl rfl (by simp)
    rw [hchild] at htext
    refine ⟨h.recasts.trans hrecasts, fun i hi => ?_, hkept, hdropped htext, fun i hi => ?_,
      fun i hi hi' => ?_⟩
    · have hne : i ≠ target := fun he => (hapart hi).1 (he ▸ hseen)
      rw [Joining.join, node_modify_of_ne hne]
      exact h.apart i (hapart hi).1
    · have hi : region = .paragraph i ∨ region = .fenced i := hi
      rcases hregion with rfl | rfl
      · exact h.target i hi
      · rcases hi with hi | hi <;> cases hi
    · by_cases he : i = target
      · rw [he, Joining.join, node_modify_self hsize]
        exact h.tidy target hmem htargetText
      · rw [Joining.join, node_modify_of_ne he]
        exact h.tidy i hi hi'

private theorem foldl (h : Walked d seen j) (rest : List NodeId) (hn : (seen ++ rest).Nodup)
    (hsizes : ∀ i ∈ seen ++ rest, i < d.size) :
    Walked d (seen ++ rest) (rest.foldl Joining.step j) := by
  induction rest generalizing seen j with
  | nil => simpa using h
  | cons child rest ih =>
    have hnew : child ∉ seen := fun hm =>
      (List.nodup_append.mp hn).2.2 child hm child List.mem_cons_self rfl
    have hstep := h.step hnew (hsizes child (by simp)) fun i hi => hsizes i (by simp [hi])
    rw [List.append_cons] at hn hsizes ⊢
    exact ih hstep hn hsizes

end Walked

/-! ### Other children -/

private theorem parent_foldl (parent : Option NodeId) (ids : List NodeId) (d : Document)
    (i : NodeId) :
    ((ids.foldl (fun d id => d.modify id fun n => { n with parent }) d).node i).parent =
      if i ∈ ids ∧ i < d.size then parent else (d.node i).parent := by
  induction ids generalizing d with
  | nil => simp
  | cons id ids ih =>
    have hsize : (d.modify id fun n => { n with parent }).size = d.size :=
      (Touches.modify_parent d id parent).size
    rw [List.foldl_cons, ih, hsize]
    by_cases hlt : i < d.size
    · by_cases hi : i = id
      · subst hi
        simp [hlt, node_modify_self]
      · simp [hlt, hi, node_modify_of_ne hi]
    · simp only [hlt, and_false, if_false]
      rw [node_of_size_le (Nat.le_of_not_lt hlt),
        node_of_size_le (by rw [hsize]; exact Nat.le_of_not_lt hlt)]

/-- The children that a node had lose their parent, and those that it gets have it. -/
theorem parent_replaceChildren (d : Document) (id : NodeId) {children : List NodeId} {i : NodeId}
    (hsize : i ∈ children → i < d.size) :
    ((d.replaceChildren id children).node i).parent =
      if i ∈ children then some id
      else if i ∈ (d.node id).children then none else (d.node i).parent := by
  let released := (d.node id).children.foldl
    (fun d i => d.modify i fun n => { n with parent := none }) d
  let claimed := children.foldl
    (fun d i => d.modify i fun n => { n with parent := some id }) released
  have hreleased : released.size = d.size := by
    have hfold (ids : List NodeId) (d : Document) :
        (ids.foldl (fun d i => d.modify i fun n => { n with parent := none }) d).size = d.size := by
      induction ids generalizing d with
      | nil => rfl
      | cons j ids ih => rw [List.foldl_cons, ih, (Touches.modify_parent d j none).size]
    exact hfold _ d
  have hclaimed : (claimed.node i).parent = if i ∈ children then some id
      else if i ∈ (d.node id).children then none else (d.node i).parent := by
    rw [parent_foldl, parent_foldl, hreleased]
    by_cases hi : i ∈ children
    · simp [hi, hsize hi]
    · by_cases hlt : i < d.size
      · simp [hi, hlt]
      · simp [hi, hlt, node_of_size_le (Nat.le_of_not_lt hlt), default,
          instInhabitedNode.default]
  rw [← hclaimed]
  change ((claimed.modify id fun n => { n with children }).node i).parent = _
  by_cases hi : i = id
  · subst hi
    by_cases hlt : i < claimed.size
    · rw [node_modify_self hlt]
    · rw [node_of_size_le (Nat.le_of_not_lt hlt), node_of_size_le]
      rw [(Touches.modify claimed i _).size]
      exact Nat.le_of_not_lt hlt
  · rw [node_modify_of_ne hi]

/-! ### Documents with lines joined -/

/-- The second document is the first one with texts put together: the nodes, the sections and
everything but the texts stay, child lists are parts of what they were, and a child that is left out
is a text without a parent. -/
structure Tightens (d e : Document) : Prop where
  linked : e.Linked
  size : e.size = d.size
  root : ∀ s, e.root? s = d.root? s
  place : ∀ i, (e.node i).place = (d.node i).place
  value : ∀ i, (d.node i).kind ≠ .text → (e.node i).value = (d.node i).value
  children : ∀ p, (e.node p).children.Sublist (d.node p).children
  dropped : ∀ p, ∀ i ∈ (d.node p).children, i ∉ (e.node p).children →
    (d.node i).kind = .text ∧ (e.node i).parent = none

namespace Tightens

private theorem refl (h : d.Linked) : Tightens d d where
  linked := h
  size := rfl
  root _ := rfl
  place _ := rfl
  value _ _ := rfl
  children _ := List.Sublist.refl _
  dropped _ _ hi hn := absurd hi hn

private theorem trans (h : Tightens d e) (h' : Tightens e f) : Tightens d f where
  linked := h'.linked
  size := h'.size.trans h.size
  root s := (h'.root s).trans (h.root s)
  place i := (h'.place i).trans (h.place i)
  value i hi := (h'.value i (by rwa [kind_of_place (h.place i)])).trans (h.value i hi)
  children p := (h'.children p).trans (h.children p)
  dropped p i hi hn := by
    by_cases hm : i ∈ (e.node p).children
    · obtain ⟨htext, hparent⟩ := h'.dropped p i hm hn
      exact ⟨(kind_of_place (h.place i)).symm.trans htext, hparent⟩
    · obtain ⟨htext, hparent⟩ := h.dropped p i hi hm
      refine ⟨htext, Option.eq_none_iff_forall_ne_some.mpr fun q hq => ?_⟩
      -- a child that was left out is below no other node either
      have hbelow := (h'.children q).subset ((h'.linked.parent_iff q i).mp hq)
      cases hparent.symm.trans ((h.linked.parent_iff q i).mpr hbelow)

private theorem textLeaves (h : Tightens d e) (hd : d.TextLeaves) : e.TextLeaves := by
  intro i hi
  have hnone := hd i ((kind_of_place (h.place i)).symm.trans hi)
  have hsub := h.children i
  rw [hnone] at hsub
  exact List.sublist_nil.mp hsub

private theorem kindsBelow (h : Tightens d e) (p : NodeId) :
    (e.kindsBelow p).Sublist (d.kindsBelow p) := by
  have hkinds : e.kindsBelow p = (e.node p).children.map fun i => (d.node i).kind :=
    List.map_congr_left fun i _ => kind_of_place (h.place i)
  rw [hkinds]
  exact (h.children p).map _

end Tightens

/-- Lines were joined below nodes from `first` on: what was tidy stays so, and earlier nodes have
the children that they had. -/
structure Joins (first : NodeId) (d e : Document) : Prop extends Tightens d e where
  filled : d.Filled → e.Filled
  before : ∀ p < first, (e.node p).children = (d.node p).children
  tidy : ∀ p, d.Tidy p → e.Tidy p

namespace Joins

variable {first first' : NodeId}

private theorem refl (h : d.Linked) (first : NodeId) : Joins first d d :=
  ⟨.refl h, id, fun _ _ => rfl, fun _ => id⟩

private theorem trans (h : Joins first d e) (h' : Joins first e f) : Joins first d f :=
  ⟨h.toTightens.trans h'.toTightens, fun hd => h'.filled (h.filled hd),
    fun p hp => (h'.before p hp).trans (h.before p hp), fun p hp => h'.tidy p (h.tidy p hp)⟩

private theorem mono (h : Joins first' d e) (hle : first ≤ first') : Joins first d e :=
  ⟨h.toTightens, h.filled, fun p hp => h.before p (Nat.lt_of_lt_of_le hp hle), h.tidy⟩

end Joins

/-- Joining the lines among the children of a node leaves it tidy. -/
theorem joins_joinChildren (h : d.Linked) {id : NodeId} (hid : id < d.size) :
    Joins id d (d.joinChildren id (d.node id).children) ∧
      (d.joinChildren id (d.node id).children).Tidy id := by
  have hsizes : ∀ i ∈ (d.node id).children, i < d.size := fun i hi => h.lt_size hi
  have hwalked := (Walked.start d).foldl (d.node id).children
    ((h.ordered id).imp Nat.ne_of_lt) (by simpa using hsizes)
  rw [List.nil_append] at hwalked
  rw [joinChildren]
  generalize (d.node id).children.foldl Joining.step { document := d } = j at hwalked ⊢
  obtain ⟨hrecasts, hapart, hkept, hdropped, -, htidy⟩ := hwalked
  have hkeptSizes : ∀ i ∈ j.kept, i < j.document.size := fun i hi =>
    hrecasts.size ▸ hsizes i (hkept.subset hi)
  obtain ⟨htouch, hview⟩ := touches_replaceChildren j.document id j.kept
  have hcontent (i : NodeId) : ((j.document.replaceChildren id j.kept).node i).toContent =
      (j.document.node i).toContent := by
    by_cases hi : i = id
    · rw [hi]
      exact congrArg Prod.fst (hview (hrecasts.size ▸ hid))
    · exact congrArg Prod.fst (htouch.view i (by simpa using hi))
  have hchildren (i : NodeId) : ((j.document.replaceChildren id j.kept).node i).children =
      if i = id then j.kept else (d.node i).children := by
    split
    · next hi =>
      rw [hi]
      exact congrArg Prod.snd (hview (hrecasts.size ▸ hid))
    · next hi =>
      exact (congrArg Prod.snd (htouch.view i (by simpa using hi))).trans (hrecasts.children i)
  have hparent (i : NodeId) : ((j.document.replaceChildren id j.kept).node i).parent =
      if i ∈ j.kept then some id
      else if i ∈ (d.node id).children then none else (d.node i).parent := by
    rw [parent_replaceChildren _ _ (hkeptSizes i), hrecasts.children, hrecasts.parent]
  generalize j.document.replaceChildren id j.kept = e at htouch hcontent hchildren hparent
  have hplace (i : NodeId) : (e.node i).place = (d.node i).place := by
    rw [hcontent, hrecasts.place]
  have hsub (p : NodeId) : (e.node p).children.Sublist (d.node p).children := by
    rw [hchildren]
    split
    · next hp => rw [hp]; exact hkept
    · exact List.Sublist.refl _
  have hsize : e.size = d.size := htouch.size.trans hrecasts.size
  have hroot (s : Section) : e.root? s = d.root? s := (htouch.root s).trans (hrecasts.root s)
  have hlinked : e.Linked := by
    refine ⟨fun p i => ?_, fun p => (h.ordered p).sublist (hsub p),
      fun p i hi => h.behind p i ((hsub p).subset hi), fun s i hi => ?_⟩
    · have hid := h.parent_iff id i
      have hp := h.parent_iff p i
      have hmem : i ∈ j.kept → i ∈ (d.node id).children := fun hi => hkept.subset hi
      rw [hparent, hchildren]
      grind
    · rw [hroot] at hi
      obtain ⟨hlt, hnone, hkind⟩ := h.root s i hi
      have hout : i ∉ (d.node id).children := fun hm => by
        cases hnone.symm.trans ((h.parent_iff id i).mpr hm)
      refine ⟨hsize ▸ hlt, ?_, (kind_of_place (hplace i)).trans hkind⟩
      rw [hparent, if_neg fun hm => hout (hkept.subset hm), if_neg hout, hnone]
  have hfilled : d.Filled → e.Filled := by
    intro hd i hi hform
    rw [hcontent] at hi hform ⊢
    exact hrecasts.filled hd i hi hform
  have hself : e.Tidy id := by
    intro i hi htext
    rw [hchildren, if_pos rfl] at hi
    rw [hcontent]
    exact htidy i hi ((kind_of_place (hplace i)).symm.trans htext)
  refine ⟨⟨⟨hlinked, hsize, hroot, hplace, fun i hi => ?_, hsub, fun p i hi hn => ?_⟩, hfilled,
    fun p hp => ?_, fun p hp => ?_⟩, hself⟩
  · rw [hcontent, hrecasts.value i hi]
  · rw [hchildren] at hn
    split at hn
    · next he =>
      subst he
      exact ⟨hdropped i hi hn, by rw [hparent, if_neg hn, if_pos hi]⟩
    · exact absurd hi hn
  · rw [hchildren, if_neg (Nat.ne_of_lt hp)]
  · by_cases he : p = id
    · exact he ▸ hself
    · intro i hi htext
      rw [hchildren, if_neg he] at hi
      -- the children of another node are none of this one
      have hout : i ∉ (d.node id).children := fun hm => he (Option.some.inj
        (((h.parent_iff p i).mpr hi).symm.trans ((h.parent_iff id i).mpr hm)))
      rw [hcontent, hapart i hout]
      exact hp i hi ((kind_of_place (hplace i)).symm.trans htext)

/-! ### Whole documents -/

/-- Child links lead from one node to another. -/
def Descends (d : Document) : NodeId → NodeId → Prop :=
  Relation.ReflTransGen fun p i => i ∈ (d.node p).children

private theorem Descends.of_tightens (h : Tightens d e) {p i : NodeId} (hi : e.Descends p i) :
    d.Descends p i :=
  Relation.ReflTransGen.mono (fun q _ hm => (h.children q).subset hm) _ _ hi

/-- `Joined first d e i`: lines were joined below nodes from `first` on, and everything below `i` is
tidy. -/
def Joined (first : NodeId) (d e : Document) (i : NodeId) : Prop :=
  Joins first d e ∧ ∀ p, e.Descends i p → e.Tidy p

/-- Joining lines below one node after the other leaves everything below all of them tidy. -/
theorem joined_foldl (op : Document → NodeId → Document) (first : NodeId) (ids : List NodeId)
    {size : Nat}
    (hop : ∀ i ∈ ids, ∀ d : Document, d.Linked → d.TextLeaves → d.size = size →
      Joined first d (op d i) i)
    (h : d.Linked) (hleaves : d.TextLeaves) (hsize : d.size = size) :
    Joins first d (ids.foldl op d) ∧ ∀ i ∈ ids, Joined first d (ids.foldl op d) i := by
  induction ids generalizing d with
  | nil => exact ⟨.refl h first, by simp⟩
  | cons i ids ih =>
    obtain ⟨hfirst, htidy⟩ := hop i List.mem_cons_self d h hleaves hsize
    obtain ⟨hrest, hjoined⟩ := ih (fun k hk => hop k (List.mem_cons_of_mem i hk)) hfirst.linked
      (hfirst.textLeaves hleaves) (hfirst.size.trans hsize)
    refine ⟨hfirst.trans hrest, fun k hk => ⟨hfirst.trans hrest, fun p hp => ?_⟩⟩
    rcases List.mem_cons.mp hk with rfl | hk
    · exact hrest.tidy p (htidy p (hp.of_tightens hrest.toTightens))
    · exact (hjoined k hk).2 p hp

private theorem joined_joinLinesTo (depth : Nat) {id : NodeId} (h : d.Linked)
    (hleaves : d.TextLeaves)
    (hid : id < d.size) (hdepth : d.size ≤ depth + id) :
    Joined id d (joinLinesTo depth d id) id := by
  induction depth generalizing d id with
  | zero => exact absurd hid (by rw [Nat.zero_add] at hdepth; exact Nat.not_lt.mpr hdepth)
  | succ depth ih =>
    obtain ⟨hbelow, htidy⟩ := joined_foldl
      (fun d child => if (d.node child).isText then d else joinLinesTo depth d child) (id + 1)
      (d.node id).children
      (fun c hc e he hleaves' hsize => by
        have hlater : id + 1 ≤ c := h.behind id c hc
        have hlt : c < e.size := hsize ▸ h.lt_size hc
        split
        · next htext =>
          have hkind : (e.node c).kind = .text := by simpa [Content.isText] using htext
          refine ⟨.refl he _, fun p hp => ?_⟩
          rcases Relation.ReflTransGen.cases_head hp with rfl | ⟨q, hq, -⟩
          · intro i hi
            rw [hleaves' c hkind] at hi
            cases hi
          · rw [hleaves' c hkind] at hq
            cases hq
        · have hfuel : e.size ≤ depth + c := calc
            e.size = d.size := hsize
            _ ≤ depth + (id + 1) := by rw [Nat.add_comm id, ← Nat.add_assoc]; exact hdepth
            _ ≤ depth + c := Nat.add_le_add_left hlater depth
          obtain ⟨hjoins, hall⟩ := ih he hleaves' hlt hfuel
          exact ⟨hjoins.mono hlater, hall⟩) h hleaves rfl
    rw [joinLinesTo]
    generalize (d.node id).children.foldl
      (fun d child => if (d.node child).isText then d else joinLinesTo depth d child) d = e
        at hbelow htidy
    have hchildren := hbelow.before id (Nat.lt_succ_self id)
    obtain ⟨hjoins, hself⟩ := joins_joinChildren hbelow.linked (hbelow.size ▸ hid : id < e.size)
    rw [hchildren] at hjoins hself
    refine ⟨(hbelow.mono (Nat.le_succ id)).trans hjoins, fun p hp => ?_⟩
    rcases Relation.ReflTransGen.cases_head hp with rfl | ⟨c, hc, hdown⟩
    · exact hself
    · have hc' : c ∈ (d.node id).children := hchildren ▸ (hjoins.children id).subset hc
      exact hjoins.tidy p ((htidy c hc').2 p
        (Descends.of_tightens hjoins.toTightens hdown))

/-- A root lies in the document. -/
theorem lt_size_of_mem_roots (h : d.Linked) {i : NodeId} (hi : i ∈ d.roots) : i < d.size := by
  obtain ⟨s, -, hs⟩ := List.mem_filterMap.mp hi
  exact (h.root s i hs).1

/-- Joining all lines of a linked document leaves everything below its sections tidy. -/
theorem joined_joinLines (h : d.Linked) (hleaves : d.TextLeaves) :
    Joins 0 d d.joinLines ∧ ∀ i ∈ d.roots, Joined 0 d d.joinLines i :=
  joined_foldl joinLinesBelow 0 d.roots
    (fun i hi e he hleaves' hsize => by
      have hlt : i < e.size := hsize ▸ lt_size_of_mem_roots h hi
      obtain ⟨hjoins, htidy⟩ := joined_joinLinesTo e.size he hleaves' hlt (Nat.le_add_right _ _)
      exact ⟨hjoins.mono (Nat.zero_le i), htidy⟩) h hleaves rfl

/-- A way leads to a node below its section. -/
theorem descends_of_follow? {s : Section} {way : List Nat} {i : NodeId}
    (h : d.follow? s way = some i) : ∃ r ∈ d.roots, d.Descends r i := by
  induction way using List.reverseRecOn generalizing i with
  | nil =>
    rw [follow?_nil] at h
    exact ⟨i, List.mem_filterMap.mpr ⟨s, Section.mem_all s, h⟩, .refl⟩
  | append_singleton way n ih =>
    rw [follow?_concat, Option.bind_eq_some_iff] at h
    obtain ⟨p, hp, hi⟩ := h
    obtain ⟨r, hr, hdown⟩ := ih hp
    exact ⟨r, hr, hdown.tail (List.mem_of_getElem? hi)⟩

/-- No text that is reached from a section is empty or a line once lines are joined. -/
theorem text_of_joinLines (h : d.Linked) (hleaves : d.TextLeaves) (hfilled : d.Filled) {s : Section}
    {way : List Nat} {i : NodeId} (hi : d.joinLines.follow? s way = some i)
    (htext : (d.joinLines.node i).kind = .text) :
    (d.joinLines.node i).value ≠ "" ∧ (d.joinLines.node i).form ≠ .line := by
  obtain ⟨hjoins, hjoined⟩ := joined_joinLines h hleaves
  have hroots : d.joinLines.roots = d.roots := List.filterMap_congr fun r _ => hjoins.root r
  have hform : (d.joinLines.node i).form ≠ .line := by
    cases way using List.reverseRecOn with
    | nil =>
      rw [follow?_nil] at hi
      have hkind := (hjoins.linked.root s i hi).2.2
      rw [htext] at hkind
      cases s <;> cases hkind
    | append_singleton way n =>
      rw [follow?_concat, Option.bind_eq_some_iff] at hi
      obtain ⟨p, hp, hchild⟩ := hi
      obtain ⟨r, hr, hdown⟩ := descends_of_follow? hp
      exact (hjoined r (hroots ▸ hr)).2 p hdown i (List.mem_of_getElem? hchild) htext
  exact ⟨hjoins.filled hfilled i htext hform, hform⟩

end Document

namespace Origin

open Document

variable {w : Workspace} {width : UInt64} {searchPaths : List String} {origin : Origin}

/-- A document that was read is a forest. Its nodes are those of the keywords, names and texts of
the run in the order they were given; each is reached from one section in one way; the two sides of
every link agree; and blocks have the shape of their kind. Joining lines keeps all of this but the
texts that go into others, and leaves no empty text and no line below a section. -/
theorem parse_forest {d : Document} (h : origin.parse w width searchPaths = .ok d) :
    (∃ s, origin.stream w width searchPaths = .ok s ∧
      d.nodes.toList.map (·.toContent) = (Compile.nodeTokens w width s).map Content.ofToken) ∧
    (∀ i < d.size, ∃! way : Section × List Nat, d.follow? way.1 way.2 = some i) ∧
    d.Linked ∧
    (∀ i, (d.node i).kind = .text → (d.node i).form = .line) ∧
    (∀ i, ShapeOf (d.node i).kind (d.kindsBelow i)) ∧
    d.Tightens d.joinLines ∧
    (∀ i, ShapeOf (d.joinLines.node i).kind (d.joinLines.kindsBelow i)) ∧
    ∀ s way i, d.joinLines.follow? s way = some i → (d.joinLines.node i).kind = .text →
      (d.joinLines.node i).value ≠ "" ∧ (d.joinLines.node i).form ≠ .line := by
  rw [parse_eq] at h
  cases hstream : origin.stream w width searchPaths with
  | error problems =>
    rw [hstream] at h
    cases h
  | ok s =>
    rw [hstream] at h
    have hread : Compile.readStream w width s = .ok d := h
    have hcontents := Compile.contents_of_readStream (kind_of_stream hstream) hread
    obtain ⟨b, hsound, hproblems, rfl⟩ := Builder.sound_of_build hread
    have hlines : ∀ i, (b.document.node i).kind = .text → (b.document.node i).form = .line := by
      intro i _
      cases ht : (Compile.nodeTokens w width s)[i]? with
      | some t => rw [content_of_tokens hcontents ht]; rfl
      | none =>
        have hle : b.document.size ≤ i := by
          have hlength := congrArg List.length hcontents
          simp only [List.length_map, Array.length_toList] at hlength
          rw [size, hlength]
          exact List.getElem?_eq_none_iff.mp ht
        rw [node_of_size_le hle]
        rfl
    have hleaves : b.document.TextLeaves := fun i hi => hsound.leaf i (by rw [hi]; rfl)
    have hfilled : b.document.Filled := fun i hi hform => absurd (hlines i hi) hform
    obtain ⟨hjoins, -⟩ := joined_joinLines hsound.linked hleaves
    refine ⟨⟨s, rfl, hcontents⟩, fun i hi => ?_, hsound.linked, hlines, hsound.shape,
      hjoins.toTightens, fun i => ?_, fun r way i hi htext => ?_⟩
    · exact hsound.linked.existsUnique_follow? (hsound.complete hproblems) hi
    · rw [kind_of_place (hjoins.place i)]
      exact (hsound.shape i).sublist (hjoins.kindsBelow i)
    · exact text_of_joinLines hsound.linked hleaves hfilled hi htext

end Origin

/-! ### A plan with a paragraph and a nested block -/

/-- A named context with a paragraph of two lines, another one and a nested context. -/
def planOutline : String :=
  "Context: Plan\n    first\n    second\n\n    third\n    Context:\n        inner\n"

/-- The plan has eight nodes, each with its own way from a section. Joining the lines of its first
paragraph takes the second line and the blank one out of the tree. -/
theorem parse_forest_plan :
    ∃ d, (Origin.text "plan" planOutline).parse {} 4 [] = .ok d ∧ d.size = 8 ∧
      (d.node 0).children = [1, 2, 3, 4, 5, 6] ∧ (d.joinLines.node 0).children = [1, 2, 5, 6] ∧
      (∃! way : Section × List Nat, d.follow? way.1 way.2 = some 7) ∧
      (d.joinLines.node 3).parent = none ∧
      (d.joinLines.node 2).value ≠ "" ∧ (d.joinLines.node 2).form ≠ .line := by
  have hended :
    (Round.after {} 4 40 (Origin.start {} 4 [] (.text "plan" planOutline))).document?.map
      (fun d => (d.size, (d.node 0).children, (d.joinLines.node 0).children,
        (d.joinLines.node 2).kind, d.joinLines.follow? .context [1])) =
        some (8, [1, 2, 3, 4, 5, 6], [1, 2, 5, 6], .text, some 2) := by decide +kernel
  obtain ⟨d, hd, hfacts⟩ := Option.map_eq_some_iff.mp hended
  have hparse : (Origin.text "plan" planOutline).parse {} 4 [] = .ok d :=
    Origin.parse_of_ended (Round.ended_of_document? hd)
  obtain ⟨-, hways, -, -, -, htightens, -, htexts⟩ := Origin.parse_forest hparse
  simp only [Prod.mk.injEq] at hfacts
  obtain ⟨hsize, hbefore, hafter, hkind, hway⟩ := hfacts
  exact ⟨d, hparse, hsize, hbefore, hafter, hways 7 (by rw [hsize]; decide),
    (htightens.dropped 0 3 (by rw [hbefore]; decide) (by rw [hafter]; decide)).2,
    htexts .context [1] 2 hway hkind⟩

end PromptOutline
