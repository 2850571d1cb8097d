import PromptOutline.Proofs.JoinedLinks

/-!
# Joining lines in one pass

Lines are joined by a walk down the blocks of a document. It takes one node after the other, nested
blocks before the block around them, and joins the lines among its children. No block moves or goes
away on that walk, so the order of the nodes can be read off the document at the start, and joining
lines is a pass over that order. This holds of every document whose child links have no cycle, also
of one with nodes that are shared.
-/

namespace PromptOutline

namespace Document

open Joining

variable {d e f : Document}

/-- Join the lines among the children of one node. -/
def joinAt (d : Document) (p : NodeId) : Document := d.joinChildren p (d.node p).children

/-- The nodes at which lines are joined below a node, in order, to a depth of as many steps. -/
def order (d : Document) : (depth : Nat) → NodeId → List NodeId
  | 0, _ => []
  | depth + 1, p =>
    (d.node p).children.flatMap (fun i => if (d.node i).isText then [] else d.order depth i) ++ [p]

/-- No node stands below itself. -/
def Acyclic (d : Document) : Prop := ∀ p i, i ∈ (d.node p).children → ¬ d.Descends i p

/-- A document whose children all stand behind their parents is acyclic. -/
theorem acyclic_of_behind (h : ∀ p, ∀ i ∈ (d.node p).children, p < i) : d.Acyclic := by
  have hle {p i : NodeId} (hdown : d.Descends p i) : p ≤ i := by
    induction hdown with
    | refl => exact Nat.le_refl p
    | tail _ hi ih => exact ih.trans (Nat.le_of_lt (h _ _ hi))
  exact fun p i hi hdown => absurd (h p i hi) (Nat.not_lt.mpr (hle hdown))

/-- The nodes among some that are no texts. -/
def nested (d : Document) (ids : List NodeId) : List NodeId :=
  ids.filter fun i => !(d.node i).isText

private theorem nested_append (d : Document) (ids ids' : List NodeId) :
    d.nested (ids ++ ids') = d.nested ids ++ d.nested ids' :=
  List.filter_append ..

/-- A node of some kind lies in the document. -/
theorem lt_size_of_kind {i : NodeId} (h : (d.node i).kind ≠ .none) : i < d.size := by
  by_contra hle
  rw [node_of_size_le (Nat.le_of_not_lt hle)] at h
  exact h rfl

private theorem isText_of_place {i : NodeId} (h : (e.node i).place = (d.node i).place) :
    (e.node i).isText = (d.node i).isText := by
  rw [Content.isText, Content.isText, kind_of_place h]

/-! ### What joining at one node does -/

/-- Documents that differ in nothing but the values and forms of nodes, where no line is new. -/
structure Reforms (d e : Document) : Prop where
  size : e.size = d.size
  root : ∀ s, e.root? s = d.root? s
  parent : ∀ i, (e.node i).parent = (d.node i).parent
  children : ∀ i, (e.node i).children = (d.node i).children
  place : ∀ i, (e.node i).place = (d.node i).place
  form : ∀ i, (d.node i).form ≠ .line → (e.node i).form ≠ .line

namespace Reforms

private theorem refl (d : Document) : Reforms d d :=
  ⟨rfl, fun _ => rfl, fun _ => rfl, fun _ => rfl, fun _ => rfl, fun _ => id⟩

private theorem trans (h : Reforms d e) (h' : Reforms e f) : Reforms d f where
  size := h'.size.trans h.size
  root s := (h'.root s).trans (h.root s)
  parent i := (h'.parent i).trans (h.parent i)
  children i := (h'.children i).trans (h.children i)
  place i := (h'.place i).trans (h.place i)
  form i hi := h'.form i (h.form i hi)

private theorem modify (d : Document) (i : NodeId) {f : Node → Node}
    (hparent : ∀ n, (f n).parent = n.parent) (hchildren : ∀ n, (f n).children = n.children)
    (hplace : ∀ n, (f n).place = n.place) (hform : ∀ n, n.form ≠ .line → (f n).form ≠ .line) :
    Reforms d (d.modify i f) := by
  have hnode (k : NodeId) : (d.modify i f).node k = f (d.node k) ∨
      (d.modify i f).node k = d.node k := by
    by_cases hk : k = i
    · by_cases hi : i < d.size
      · exact .inl (by rw [hk, node_modify_self hi])
      · have hle : d.size ≤ i := Nat.le_of_not_lt hi
        refine .inr ?_
        rw [hk, node_of_size_le hle, node_of_size_le (by rwa [(Touches.modify d i f).size])]
    · exact .inr (node_modify_of_ne hk f)
  refine ⟨(Touches.modify d i f).size, (Touches.modify d i f).root, fun k => ?_, fun k => ?_,
    fun k => ?_, fun k hk => ?_⟩ <;> rcases hnode k with hk' | hk' <;> rw [hk']
  · exact hparent _
  · exact hchildren _
  · exact hplace _
  · exact hform _ hk
  · exact hk

end Reforms

/-- What holds of a walk over the children `seen`, which may name a node more than once: nothing but
lines is left out, no line is kept, and nodes elsewhere are as they were. -/
structure Passed (d : Document) (seen : List NodeId) (j : Joining) : Prop where
  reforms : Reforms d j.document
  apart : ∀ i, i ∉ seen → j.document.node i = d.node i
  kept : j.kept.Sublist seen
  nested : d.nested j.kept = d.nested seen
  tidy : ∀ i ∈ j.kept, (d.node i).kind = .text → (j.document.node i).form ≠ .line
  dropped : ∀ i ∈ seen, i ∉ j.kept → (d.node i).kind = .text ∧ (d.node i).form = .line
  target : ∀ i, j.region = .paragraph i ∨ j.region = .fenced i → i ∈ seen

namespace Passed

variable {seen : List NodeId} {j j' : Joining} {child : NodeId}

private theorem start (d : Document) : Passed d [] { document := d } where
  reforms := .refl d
  apart _ _ := rfl
  kept := List.Sublist.refl _
  nested := rfl
  tidy i hi := by cases hi
  dropped i hi := by cases hi
  target i hi := by rcases hi with hi | hi <;> cases hi

/-- A child that is a line may be left out. -/
theorem leave (h : Passed d seen j) (hreforms : Reforms j.document j'.document)
    (hapart : ∀ i, i ∉ seen → j'.document.node i = j.document.node i) (hkept : j'.kept = j.kept)
    (htext : (j.document.node child).kind = .text) (hline : (j.document.node child).form = .line)
    (htarget : j'.region = j.region ∨ j'.region = .closed) : Passed d (seen ++ [child]) j' where
  reforms := h.reforms.trans hreforms
  apart i hi := by
    rw [List.mem_append, not_or] at hi
    rw [hapart i hi.1, h.apart i hi.1]
  kept := hkept ▸ h.kept.trans (List.sublist_append_left _ _)
  nested := by
    have hchild : (d.node child).isText = true := by
      rw [← isText_of_place (h.reforms.place child), Content.isText, htext]
      rfl
    rw [hkept, nested_append, h.nested, Document.nested, Document.nested]
    simp [hchild]
  tidy i hi htext := hreforms.form i (h.tidy i (hkept ▸ hi) htext)
  dropped i hi hn := by
    rw [hkept] at hn
    rcases List.mem_append.mp hi with hi | hi
    · exact h.dropped i hi hn
    · rw [List.mem_singleton.mp hi]
      refine ⟨(kind_of_place (h.reforms.place child)).symm.trans htext, ?_⟩
      by_contra hform
      exact h.reforms.form child hform hline
  target i hi := by
    rcases htarget with he | he <;> rw [he] at hi
    · exact List.mem_append_left _ (h.target i hi)
    · rcases hi with hi | hi <;> cases hi

/-- A child that is no line, or that is none any more, may be kept. -/
theorem keep (h : Passed d seen j) (hreforms : Reforms j.document j'.document)
    (hapart : ∀ i, i ≠ child → j'.document.node i = j.document.node i)
    (hkept : j'.kept = j.kept ++ [child])
    (hline : (j.document.node child).kind = .text → (j'.document.node child).form ≠ .line)
    (htarget : j'.region ∈ [.closed, .paragraph child, .fenced child]) :
    Passed d (seen ++ [child]) j' where
  reforms := h.reforms.trans hreforms
  apart i hi := by
    rw [List.mem_append, not_or, List.mem_singleton] at hi
    rw [hapart i hi.2, h.apart i hi.1]
  kept := hkept ▸ h.kept.append_right _
  nested := by rw [hkept, nested_append, nested_append, h.nested]
  tidy i hi htext := by
    rw [hkept] at hi
    rcases List.mem_append.mp hi with hi | hi
    · exact hreforms.form i (h.tidy i hi htext)
    · rw [List.mem_singleton.mp hi] at htext ⊢
      exact hline ((kind_of_place (h.reforms.place child)).trans htext)
  dropped i hi hn := by
    rw [hkept, List.mem_append, not_or] at hn
    exact h.dropped i ((List.mem_append.mp hi).resolve_right hn.2) hn.1
  target i hi := by
    refine List.mem_append_right _ (List.mem_singleton.mpr ?_)
    simp only [List.mem_cons, List.not_mem_nil, or_false] at htarget
    rcases htarget with he | he | he <;> rw [he] at hi <;> rcases hi with hi | hi <;> cases hi <;>
      rfl

private theorem step (h : Passed d seen j) (child : NodeId) :
    Passed d (seen ++ [child]) (j.step child) := by
  have hstep := j.stepped_step child
  generalize j.step child = j' at hstep
  cases hstep with
  | kept hline => exact h.keep (.refl _) (fun _ _ => rfl) rfl hline (by simp)
  | dropped htext hline => exact h.leave (.refl _) (fun _ _ => rfl) rfl htext hline (.inr rfl)
  | @started form region htext _ hform hregion _ =>
    have hreforms : Reforms j.document (j.start child form region).document :=
      .modify _ _ (fun _ => rfl) (fun _ => rfl) (fun _ => rfl) fun _ _ => hform
    refine h.keep hreforms (fun i hi => node_modify_of_ne hi _) rfl (fun _ => ?_) ?_
    · rw [Joining.start, node_modify_self (lt_size_of_kind (by simp [htext]))]
      exact hform
    · rcases hregion with rfl | rfl <;> simp [Joining.start]
  | @joined target region htext htarget hregion hline =>
    have hseen : target ∈ seen := h.target target htarget
    refine h.leave (.modify _ _ (fun _ => rfl) (fun _ => rfl) (fun _ => rfl) fun _ => id)
      (fun i hi => node_modify_of_ne ?_ _) rfl htext hline hregion
    rintro rfl
    exact hi hseen

private theorem foldl (h : Passed d seen j) (rest : List NodeId) :
    Passed d (seen ++ rest) (rest.foldl Joining.step j) := by
  induction rest generalizing seen j with
  | nil => simpa using h
  | cons child rest ih =>
    rw [List.append_cons]
    exact ih (h.step child)

end Passed

/-- A walk over children from the start. -/
def Joining.walk (d : Document) (ids : List NodeId) : Joining :=
  ids.foldl Joining.step { document := d }

/-- Walking along some children passes each of them. -/
theorem Joining.passed_walk (d : Document) (ids : List NodeId) : Passed d ids (walk d ids) :=
  (Passed.start d).foldl ids

/-- The second document is the first one with lines joined at `p`: other nodes keep their children;
`p` loses children, all of them lines, and has no line as a child any more; what it keeps has it as
the parent, and what it loses has none. Only its children hold something else. -/
structure JoinsAt (p : NodeId) (d e : Document) : Prop where
  size : e.size = d.size
  root : ∀ s, e.root? s = d.root? s
  place : ∀ i, (e.node i).place = (d.node i).place
  form : ∀ i, (d.node i).form ≠ .line → (e.node i).form ≠ .line
  content : ∀ i, i ∉ (d.node p).children → (e.node i).toContent = (d.node i).toContent
  children : ∀ q, q ≠ p → (e.node q).children = (d.node q).children
  kept : (e.node p).children.Sublist (d.node p).children
  nested : d.nested (e.node p).children = d.nested (d.node p).children
  tidy : e.Tidy p
  dropped : ∀ i ∈ (d.node p).children, i ∉ (e.node p).children →
    (d.node i).kind = .text ∧ (d.node i).form = .line
  parent : ∀ i < d.size, (e.node i).parent =
    if i ∈ (e.node p).children then some p
    else if i ∈ (d.node p).children then none else (d.node i).parent

/-- New children change nothing that nodes hold. -/
theorem content_replaceChildren (d : Document) (p : NodeId) (children : List NodeId) (i : NodeId) :
    ((d.replaceChildren p children).node i).toContent = (d.node i).toContent := by
  obtain ⟨htouch, hview⟩ := touches_replaceChildren d p children
  by_cases hi : i = p
  · by_cases hp : p < d.size
    · rw [hi]
      exact congrArg Prod.fst (hview hp)
    · have hle : d.size ≤ i := hi ▸ Nat.le_of_not_lt hp
      rw [node_of_size_le hle, node_of_size_le (htouch.size.symm ▸ hle)]
  · exact congrArg Prod.fst (htouch.view i (by simpa using hi))

/-- Joining lines at a node leaves the contents that the walk along its children leaves. -/
theorem content_joinAt (d : Document) (p i : NodeId) :
    ((d.joinAt p).node i).toContent = ((walk d (d.node p).children).document.node i).toContent :=
  content_replaceChildren ..

/-- Joining lines at a node leaves it the children that the walk keeps. -/
theorem children_joinAt (d : Document) (p : NodeId) :
    ((d.joinAt p).node p).children = (walk d (d.node p).children).kept := by
  have hpassed := passed_walk d (d.node p).children
  have heq : d.joinAt p = (walk d (d.node p).children).document.replaceChildren p
      (walk d (d.node p).children).kept := rfl
  rw [heq]
  generalize walk d (d.node p).children = j at hpassed
  obtain ⟨htouch, hview⟩ := touches_replaceChildren j.document p j.kept
  by_cases hp : p < j.document.size
  · exact congrArg Prod.snd (hview hp)
  · have hle : j.document.size ≤ p := Nat.le_of_not_lt hp
    -- a node that is not there has no children to keep
    have hnone : j.kept = [] := by
      have hkept := hpassed.kept
      rw [node_of_size_le (hpassed.reforms.size ▸ hle)] at hkept
      exact List.sublist_nil.mp hkept
    rw [node_of_size_le (htouch.size.symm ▸ hle), hnone]
    rfl

/-- Joining lines at a node is a way of joining lines there. -/
theorem joinsAt_joinAt (d : Document) (p : NodeId) : JoinsAt p d (d.joinAt p) := by
  have hpassed := passed_walk d (d.node p).children
  have hcontent := content_joinAt d p
  have hchildren := children_joinAt d p
  have heq : d.joinAt p = (walk d (d.node p).children).document.replaceChildren p
      (walk d (d.node p).children).kept := rfl
  rw [heq] at hcontent hchildren ⊢
  generalize walk d (d.node p).children = j at hpassed hcontent hchildren ⊢
  obtain ⟨hreforms, hapart, hkept, hnested, htidy, hdropped, -⟩ := hpassed
  obtain ⟨htouch, -⟩ := touches_replaceChildren j.document p j.kept
  have hplace (i : NodeId) : ((j.document.replaceChildren p j.kept).node i).place =
      (d.node i).place := by
    rw [hcontent, hreforms.place]
  refine ⟨htouch.size.trans hreforms.size, fun s => (htouch.root s).trans (hreforms.root s), hplace,
    fun i hi => ?_, fun i hi => ?_, fun q hq => ?_, ?_, ?_, fun i hi htext => ?_, ?_,
    fun i hi => ?_⟩
  · rw [hcontent]
    exact hreforms.form i hi
  · rw [hcontent, hapart i hi]
  · exact (congrArg Prod.snd (htouch.view q (by simpa using hq))).trans (hreforms.children q)
  · rwa [hchildren]
  · rwa [hchildren]
  · rw [hchildren] at hi
    rw [hcontent]
    exact htidy i hi ((kind_of_place (hplace i)).symm.trans htext)
  · rwa [hchildren]
  · rw [hchildren, parent_replaceChildren _ _ (fun _ => hreforms.size ▸ hi), hreforms.children,
      hreforms.parent]

/-- Where there is no line among the children of a node, joining lines there changes only
parents. -/
theorem view_joinAt_of_tidy {p : NodeId} (h : d.Tidy p) (i : NodeId) :
    (d.joinAt p).view i = d.view i := by
  have hfold (ids kept : List NodeId) (region : Region)
      (hids : ∀ i ∈ ids, (d.node i).kind = .text → (d.node i).form ≠ .line) :
      ∃ region', ids.foldl Joining.step { document := d, kept, region } =
        { document := d, kept := kept ++ ids, region := region' } := by
    induction ids generalizing kept region with
    | nil => exact ⟨region, by simp⟩
    | cons i ids ih =>
      have hstep : Joining.step { document := d, kept, region } i =
          { document := d, kept := kept ++ [i], region := .closed } := by
        have hcond : (!(d.node i).isText || (d.node i).form != .line) = true := by
          simpa [Content.isText, imp_iff_not_or] using hids i (by simp)
        simp only [Joining.step, hcond, if_true]
      obtain ⟨region', hrest⟩ := ih (kept ++ [i]) .closed fun k hk => hids k (by simp [hk])
      exact ⟨region', by rw [List.foldl_cons, hstep, hrest, List.append_assoc]; rfl⟩
  obtain ⟨region, hj⟩ := hfold (d.node p).children [] .closed h
  rw [joinAt, joinChildren, hj]
  obtain ⟨htouch, hview⟩ := touches_replaceChildren d p ([] ++ (d.node p).children)
  by_cases hi : i = p
  · by_cases hp : p < d.size
    · rw [hi]
      exact hview hp
    · have hle : d.size ≤ p := Nat.le_of_not_lt hp
      have hle' := htouch.size.symm ▸ hle
      rw [hi, view, view, node_of_size_le hle', node_of_size_le hle]
  · exact htouch.view i (by simpa using hi)

/-! ### What a pass leaves as it is -/

/-- The second document comes from the first one by joining lines at some nodes. -/
structure Settles (d e : Document) : Prop where
  size : e.size = d.size
  root : ∀ s, e.root? s = d.root? s
  place : ∀ i, (e.node i).place = (d.node i).place
  form : ∀ i, (d.node i).form ≠ .line → (e.node i).form ≠ .line
  children : ∀ p, (e.node p).children.Sublist (d.node p).children
  nested : ∀ p, d.nested (e.node p).children = d.nested (d.node p).children

private theorem nested_congr (h : ∀ i, (e.node i).place = (d.node i).place) (ids : List NodeId) :
    e.nested ids = d.nested ids :=
  List.filter_congr fun i _ => by rw [isText_of_place (h i)]

namespace Settles

private theorem refl (d : Document) : Settles d d :=
  ⟨rfl, fun _ => rfl, fun _ => rfl, fun _ => id, fun _ => List.Sublist.refl _, fun _ => rfl⟩

private theorem trans (h : Settles d e) (h' : Settles e f) : Settles d f where
  size := h'.size.trans h.size
  root s := (h'.root s).trans (h.root s)
  place i := (h'.place i).trans (h.place i)
  form i hi := h'.form i (h.form i hi)
  children p := (h'.children p).trans (h.children p)
  nested p := by
    rw [← h.nested, ← nested_congr h.place, ← nested_congr h.place]
    exact h'.nested p

/-- Joining lines at a node settles a document. -/
theorem joinAt (d : Document) (p : NodeId) : Settles d (d.joinAt p) := by
  have h := joinsAt_joinAt d p
  refine ⟨h.size, h.root, h.place, h.form, fun q => ?_, fun q => ?_⟩
  · by_cases hq : q = p
    · subst hq
      exact h.kept
    · rw [h.children q hq]
  · by_cases hq : q = p
    · subst hq
      exact h.nested
    · rw [h.children q hq]

/-- Joining lines at some nodes settles a document. -/
theorem foldl (ids : List NodeId) (d : Document) : Settles d (ids.foldl Document.joinAt d) := by
  induction ids generalizing d with
  | nil => exact .refl d
  | cons p ids ih => exact (Settles.joinAt d p).trans (ih (d.joinAt p))

/-- Settling keeps the roots. -/
theorem roots (h : Settles d e) : e.roots = d.roots := List.filterMap_congr fun s _ => h.root s

private theorem descends (h : Settles d e) {p i : NodeId} (hi : e.Descends p i) : d.Descends p i :=
  Relation.ReflTransGen.mono (fun q _ hm => (h.children q).subset hm) _ _ hi

/-- Settling keeps a document acyclic. -/
theorem acyclic (h : Settles d e) (hd : d.Acyclic) : e.Acyclic :=
  fun p i hi hdown => hd p i ((h.children p).subset hi) (h.descends hdown)

end Settles

/-- Texts lead to no node at which lines are joined. -/
theorem order_eq (d : Document) (depth : Nat) (p : NodeId) :
    d.order (depth + 1) p = (d.nested (d.node p).children).flatMap (d.order depth) ++ [p] := by
  rw [order, nested]
  congr 1
  induction (d.node p).children with
  | nil => rfl
  | cons i ids ih =>
    rw [List.flatMap_cons, ih, List.filter_cons]
    cases (d.node i).isText <;> simp

/-- Joining lines does not change the order of the nodes at which lines are joined. -/
theorem Settles.order (h : Settles d e) (depth : Nat) (p : NodeId) :
    e.order depth p = d.order depth p := by
  induction depth generalizing p with
  | zero => rfl
  | succ depth ih =>
    rw [order_eq, order_eq, nested_congr h.place, h.nested]
    congr 1
    exact List.flatMap_congr fun i _ => ih i

private theorem descends_of_mem_order {depth : Nat} {p q : NodeId} (h : q ∈ d.order depth p) :
    d.Descends p q := by
  induction depth generalizing p with
  | zero => cases h
  | succ depth ih =>
    rw [order_eq] at h
    rcases List.mem_append.mp h with h | h
    · obtain ⟨i, hi, hq⟩ := List.mem_flatMap.mp h
      exact (ih hq).head (List.mem_of_mem_filter hi)
    · rw [List.mem_singleton.mp h]
      exact .refl

private theorem children_foldl_joinAt {ids : List NodeId} {p : NodeId} (hp : p ∉ ids)
    (d : Document) :
    ((ids.foldl joinAt d).node p).children = (d.node p).children := by
  induction ids generalizing d with
  | nil => rfl
  | cons q ids ih =>
    rw [List.mem_cons, not_or] at hp
    rw [List.foldl_cons, ih hp.2, (joinsAt_joinAt d q).children p hp.1]

/-! ### Joining lines as a pass -/

/-- Joining lines below a node is joining them at each node of the order, one after the other. -/
theorem joinLinesTo_eq_foldl (hd : d.Acyclic) (depth : Nat) (p : NodeId) :
    joinLinesTo depth d p = (d.order depth p).foldl joinAt d := by
  induction depth generalizing d p with
  | zero => rfl
  | succ depth ih =>
    have hbelow (ids : List NodeId) (e : Document) (he : Settles d e) :
        ids.foldl (fun e i => if (e.node i).isText then e else joinLinesTo depth e i) e =
          ((d.nested ids).flatMap (d.order depth)).foldl joinAt e := by
      induction ids generalizing e with
      | nil => rfl
      | cons i ids ihids =>
        rw [List.foldl_cons, isText_of_place (he.place i), nested, List.filter_cons]
        cases (d.node i).isText with
        | true => exact ihids e he
        | false =>
          simp only [Bool.not_false, if_true, Bool.false_eq_true, if_false, List.flatMap_cons,
            List.foldl_append]
          rw [ih (he.acyclic hd), he.order]
          exact ihids _ (he.trans (.foldl _ e))
    have hout : p ∉ (d.nested (d.node p).children).flatMap (d.order depth) := by
      intro hm
      obtain ⟨i, hi, hp⟩ := List.mem_flatMap.mp hm
      exact hd p i (List.mem_of_mem_filter hi) (descends_of_mem_order hp)
    rw [joinLinesTo, hbelow _ d (.refl d), order_eq, List.foldl_append, List.foldl_cons,
      List.foldl_nil]
    rw [joinAt, children_foldl_joinAt hout]

/-- Joining the lines of a document is one pass over the nodes that are no texts, one section after
the other. -/
theorem joinLines_eq_foldl (hd : d.Acyclic) :
    d.joinLines = (d.roots.flatMap (d.order d.size)).foldl joinAt d := by
  have hroots (ids : List NodeId) (e : Document) (he : Settles d e) :
      ids.foldl joinLinesBelow e = (ids.flatMap (d.order d.size)).foldl joinAt e := by
    induction ids generalizing e with
    | nil => rfl
    | cons p ids ih =>
      rw [List.foldl_cons, List.flatMap_cons, List.foldl_append, joinLinesBelow,
        joinLinesTo_eq_foldl (he.acyclic hd), he.order, he.size]
      exact ih _ (he.trans (.foldl _ e))
  exact hroots _ d (.refl d)

/-! ### The depth of the walk -/

/-- All children are nodes of the document. -/
def Closed (d : Document) : Prop := ∀ p, ∀ i ∈ (d.node p).children, i < d.size

/-- The nodes on the way down to a node, which is none of them. -/
structure Above (d : Document) (above : List NodeId) (p : NodeId) : Prop where
  nodup : (p :: above).Nodup
  lt : ∀ q ∈ above, q < d.size
  descends : ∀ q ∈ above, d.Descends q p

namespace Above

variable {above : List NodeId} {p i : NodeId}

/-- At the start of a walk nothing is above a node. -/
theorem nil (d : Document) (p : NodeId) : d.Above [] p :=
  ⟨List.nodup_singleton p, by simp, by simp⟩

/-- There are fewer nodes above a node than in the document. -/
theorem length_lt (h : d.Above above p) (hp : p < d.size) : above.length < d.size := by
  have hlt : ∀ q ∈ p :: above, q < d.size := List.forall_mem_cons.mpr ⟨hp, h.lt⟩
  have hle : (p :: above).length ≤ (List.range d.size).length :=
    (List.subperm_of_subset h.nodup fun q hq => List.mem_range.mpr (hlt q hq)).length_le
  rwa [List.length_range, List.length_cons] at hle

/-- A walk that goes on to a child has its parent above it. -/
theorem child (h : d.Above above p) (hd : d.Acyclic) (hp : p < d.size)
    (hi : i ∈ (d.node p).children) : d.Above (p :: above) i where
  nodup := by
    refine List.nodup_cons.mpr ⟨fun hm => ?_, h.nodup⟩
    -- a node above `p` would stand below itself
    rcases List.mem_cons.mp hm with rfl | hm
    · exact hd i i hi .refl
    · exact hd p i hi (h.descends i hm)
  lt := List.forall_mem_cons.mpr ⟨hp, h.lt⟩
  descends := List.forall_mem_cons.mpr ⟨.single hi, fun q hq => (h.descends q hq).tail hi⟩

end Above

/-- Below as many nodes as the document has, there is no further one. -/
theorem order_succ (hd : d.Acyclic) (hc : d.Closed) {depth : Nat} {p : NodeId}
    {above : List NodeId} (habove : d.Above above p) (hp : p < d.size)
    (hdepth : d.size ≤ depth + above.length) : d.order (depth + 1) p = d.order depth p := by
  induction depth generalizing p above with
  | zero => exact absurd (habove.length_lt hp) (by omega)
  | succ depth ih =>
    rw [order_eq, order_eq]
    congr 1
    refine List.flatMap_congr fun i hi => ?_
    have hchild : i ∈ (d.node p).children := List.mem_of_mem_filter hi
    exact ih (habove.child hd hp hchild) (hc p i hchild) (by rw [List.length_cons]; omega)

/-- The number of nodes is depth enough. -/
theorem order_of_le (hd : d.Acyclic) (hc : d.Closed) {depth : Nat} {p : NodeId} (hp : p < d.size)
    (hdepth : d.size ≤ depth) : d.order depth p = d.order d.size p := by
  induction depth, hdepth using Nat.le_induction with
  | base => rfl
  | succ depth hle ih =>
    rw [order_succ hd hc (.nil d p) hp hle, ih]

/-- The depth is a bound that is never felt: joining lines below a node joins them below each nested
block, to any depth, and then among its children. -/
theorem joinLinesBelow_eq (hd : d.Acyclic) (hc : d.Closed) {p : NodeId} (hp : p < d.size) :
    d.joinLinesBelow p =
      ((d.node p).children.foldl
        (fun e i => if (e.node i).isText then e else e.joinLinesBelow i) d).joinChildren p
          (d.node p).children := by
  have hfold (ids : List NodeId) (e : Document) (he : Settles d e) :
      ids.foldl (fun e i => if (e.node i).isText then e else joinLinesTo d.size e i) e =
        ids.foldl (fun e i => if (e.node i).isText then e else e.joinLinesBelow i) e := by
    induction ids generalizing e with
    | nil => rfl
    | cons i ids ih =>
      rw [List.foldl_cons, List.foldl_cons, joinLinesBelow, he.size]
      refine ih _ (he.trans ?_)
      split
      · exact .refl e
      · rw [joinLinesTo_eq_foldl (he.acyclic hd)]
        exact .foldl _ e
  have hdeep : joinLinesTo d.size d p = joinLinesTo (d.size + 1) d p := by
    rw [joinLinesTo_eq_foldl hd, joinLinesTo_eq_foldl hd, order_of_le hd hc hp (Nat.le_succ _)]
  rw [joinLinesBelow, hdeep, joinLinesTo, hfold _ d (.refl d)]

/-- Blocks lead from one node down to another. -/
def Encloses (d : Document) : NodeId → NodeId → Prop :=
  Relation.ReflTransGen fun p i => i ∈ d.nested (d.node p).children

/-- Lines are joined at every node that blocks lead to. -/
theorem mem_order (hd : d.Acyclic) (hc : d.Closed) {p q : NodeId} (hp : p < d.size)
    (h : d.Encloses p q) : q ∈ d.order d.size p := by
  rw [← order_of_le hd hc hp (Nat.le_succ _)]
  induction h using Relation.ReflTransGen.head_induction_on with
  | refl =>
    rw [order_eq]
    simp
  | @head p i hi _ ih =>
    have hlt : i < d.size := hc p i (List.mem_of_mem_filter hi)
    rw [order_eq]
    refine List.mem_append_left _ (List.mem_flatMap.mpr ⟨i, hi, ?_⟩)
    rw [← order_of_le hd hc hlt (Nat.le_succ _)]
    exact ih hlt

end Document

end PromptOutline
