import Mathlib.Data.List.Perm.Subperm
import PromptOutline.Document.Tree

/-!
# Where trees stand in a document

Nodes are added in the order they are read, so the nodes of a freshly built document are its trees
from the top down, one tree behind the other. `Tree.nodesAll` writes trees down that way, `plant`
and `adopt` put them behind the nodes of a document, and `ofForest` is the document that holds
nothing else.

Later operations leave gaps. `Spans` therefore says of any document which trees stand below which
nodes and which places they take up; `Document.tree` gives back the trees that it names.
-/

namespace PromptOutline

/-- The section of a kind is of that kind. -/
theorem Section.kind_of_ofKind? {k : TokenKind} {s : Section} (h : Section.ofKind? k = some s) :
    s.kind = k := by
  cases k with
  | role | context | action => cases h; rfl
  | _ => cases h

/-- No two sections are of the same kind. -/
theorem Section.kind_injective {r s : Section} (h : r.kind = s.kind) : r = s := by
  have hof : Section.ofKind? r.kind = Section.ofKind? s.kind := by rw [h]
  rw [Section.ofKind?_kind, Section.ofKind?_kind] at hof
  exact Option.some.inj hof

/-- Every section is listed. -/
theorem Section.mem_all (s : Section) : s ∈ Section.all := by
  cases s <;> decide

namespace Tree

/-- Induction on neighbouring trees: first below a tree, then beside it. -/
theorem forest_induction {P : List Tree → Prop} (nil : P [])
    (cons : ∀ c below beside, P below → P beside → P (.node c below :: beside)) (ts : List Tree) :
    P ts :=
  @Tree.rec_1 (fun t => ∀ beside, P beside → P (t :: beside)) P
    (fun c below hbelow beside hbeside => cons c below beside hbelow hbeside) nil
    (fun _ beside ht hbeside => ht beside hbeside) ts

mutual

/-- The number of nodes of a tree. -/
def count : Tree → Nat
  | node _ cs => countAll cs + 1

/-- The number of nodes of neighbouring trees. -/
def countAll : List Tree → Nat
  | [] => 0
  | t :: ts => count t + countAll ts

end

/-- The places of the top nodes of trees that are written down from place `id` on. -/
def places (id : NodeId) : List Tree → List NodeId
  | [] => []
  | t :: ts => id :: places (id + t.count) ts

mutual

/-- The nodes of a tree from the top down, from place `id` on. -/
def nodes (parent : Option NodeId) (id : NodeId) : Tree → List Node
  | node c cs =>
    { toContent := c, parent, children := places (id + 1) cs } :: nodesAll (some id) (id + 1) cs

/-- The nodes of neighbouring trees. -/
def nodesAll (parent : Option NodeId) (id : NodeId) : List Tree → List Node
  | [] => []
  | t :: ts => nodes parent id t ++ nodesAll parent (id + t.count) ts

end

private theorem places_append (id : NodeId) (ts us : List Tree) :
    places id (ts ++ us) = places id ts ++ places (id + countAll ts) us := by
  induction ts generalizing id with
  | nil => rfl
  | cons t ts ih => simp only [List.cons_append, places, countAll, ih, Nat.add_assoc]

private theorem nodesAll_append (parent : Option NodeId) (id : NodeId) (ts us : List Tree) :
    nodesAll parent id (ts ++ us) =
      nodesAll parent id ts ++ nodesAll parent (id + countAll ts) us := by
  induction ts generalizing id with
  | nil => rfl
  | cons t ts ih =>
    simp only [List.cons_append, nodesAll, countAll, ih, Nat.add_assoc, List.append_assoc]

private theorem length_nodesAll (parent : Option NodeId) (id : NodeId) (ts : List Tree) :
    (nodesAll parent id ts).length = countAll ts := by
  induction ts using forest_induction generalizing parent id with
  | nil => rfl
  | cons c below beside ihbelow ihbeside =>
    simp only [nodesAll, nodes, List.cons_append, List.length_cons, List.length_append, ihbelow,
      ihbeside, countAll, count]
    omega

end Tree

namespace Document

/-- Put trees behind the nodes of a document, below no node. -/
def plant (d : Document) (ts : List Tree) : Document :=
  { d with nodes := d.nodes ++ (Tree.nodesAll none d.size ts).toArray }

/-- Put trees behind the nodes of a document, as further children of a node. -/
def adopt (d : Document) (parent : NodeId) (ts : List Tree) : Document :=
  { d with
    nodes := d.nodes.modify parent
        (fun n => { n with children := n.children ++ Tree.places d.size ts }) ++
      (Tree.nodesAll (some parent) d.size ts).toArray }

/-- Trees that are planted take one node for each of theirs. -/
theorem size_plant (d : Document) (ts : List Tree) :
    (d.plant ts).size = d.size + Tree.countAll ts := by
  simp [plant, size, Tree.length_nodesAll]

private theorem size_adopt (d : Document) (parent : NodeId) (ts : List Tree) :
    (d.adopt parent ts).size = d.size + Tree.countAll ts := by
  simp [adopt, size, Tree.length_nodesAll]

/-- Adopting trees keeps the nodes that there are. -/
theorem lt_size_adopt {d : Document} {id : NodeId} (h : id < d.size) (parent : NodeId)
    (ts : List Tree) : id < (d.adopt parent ts).size := by
  rw [size_adopt]
  exact Nat.lt_of_lt_of_le h (Nat.le_add_right _ _)

/-- A node that is adopted stands behind the nodes before it. -/
theorem size_lt_size_adopt (d : Document) (parent : NodeId) (t : Tree) :
    d.size < (d.adopt parent [t]).size := by
  cases t
  rw [size_adopt]
  simp [Tree.countAll, Tree.count]

private theorem modify_append_of_lt {α : Type} {xs ys : Array α} {i : Nat} (f : α → α)
    (h : i < xs.size) : (xs ++ ys).modify i f = xs.modify i f ++ ys := by
  apply Array.ext
  · simp
  · intro j hj _
    simp only [Array.getElem_modify, Array.getElem_append, Array.size_modify]
    by_cases hij : i = j
    · subst hij
      simp [h]
    · simp [hij]

private theorem modify_append_size {α : Type} {xs : Array α} {i : Nat} (h : i = xs.size) (a : α)
    (ys : List α) (f : α → α) :
    (xs ++ (a :: ys).toArray).modify i f = xs ++ (f a :: ys).toArray := by
  subst h
  apply Array.ext
  · simp
  · intro j hj _
    simp only [Array.getElem_modify, Array.getElem_append, List.getElem_toArray]
    by_cases hx : xs.size = j
    · simp [← hx]
    · by_cases hlt : j < xs.size
      · simp [hx, hlt]
      · simp [hx, hlt, List.getElem_cons, Nat.sub_ne_zero_of_lt (show xs.size < j by omega)]

private theorem modify_modify_same {α : Type} (xs : Array α) (i : Nat) (f g : α → α) :
    (xs.modify i f).modify i g = xs.modify i fun a => g (f a) := by
  apply Array.ext
  · simp
  · intro j _ _
    simp only [Array.getElem_modify]
    split <;> rfl

/-- Adding a node plants a tree of one node. -/
theorem add_eq_plant (d : Document) (c : Content) : (d.add c).1 = d.plant [.node c []] := by
  simp [add, plant, Tree.nodesAll, Tree.nodes, Tree.places]

/-- Adding a node and appending it to a parent adopts a tree of one node. -/
theorem append_add {d : Document} {parent : NodeId} (c : Content) (h : parent < d.size) :
    (d.add c).1.append parent d.size = d.adopt parent [.node c []] := by
  have hchild : (d.nodes.push { toContent := c }).modify d.size
      (fun n => { n with parent := some parent }) =
      d.nodes ++ #[{ toContent := c, parent := some parent }] := by
    rw [Array.push_eq_append]
    exact modify_append_size rfl _ [] _
  simp only [add, append, modify, adopt, hchild]
  rw [modify_append_of_lt _ h]
  simp [Tree.nodesAll, Tree.nodes, Tree.places, size]

/-- Adopting trees one after the other adopts them all. -/
theorem adopt_append {d : Document} {parent : NodeId} (ts us : List Tree) (h : parent < d.size) :
    d.adopt parent (ts ++ us) = (d.adopt parent ts).adopt parent us := by
  have hsize := size_adopt d parent ts
  unfold adopt at hsize ⊢
  simp only [Tree.places_append, Tree.nodesAll_append, hsize]
  rw [modify_append_of_lt _ (by simpa [size] using h), modify_modify_same]
  simp [List.append_assoc]

/-- Without trees there is nothing to adopt. -/
theorem adopt_nil (d : Document) (parent : NodeId) : d.adopt parent [] = d := by
  have hsame :
      d.nodes.modify parent (fun n => { n with children := n.children ++ [] }) = d.nodes := by
    apply Array.ext
    · simp
    · intro j _ _
      simp [Array.getElem_modify]
  simp only [adopt, Tree.places, Tree.nodesAll, hsame]
  simp

/-- Trees adopted by a node that was adopted last end up below it. -/
theorem adopt_adopt {d : Document} {parent : NodeId} (c : Content) (cs : List Tree) :
    (d.adopt parent [.node c []]).adopt d.size cs = d.adopt parent [.node c cs] := by
  have hsize := size_adopt d parent [.node c []]
  unfold adopt at hsize ⊢
  simp only [Tree.places, Tree.nodesAll, Tree.nodes, List.append_nil, Tree.countAll,
    Tree.count] at hsize ⊢
  simp only [hsize]
  rw [modify_append_size (by simp [size])]
  simp

/-- Trees adopted by a node that was planted last end up below it. -/
theorem adopt_plant (d : Document) (c : Content) (cs : List Tree) :
    (d.plant [.node c []]).adopt d.size cs = d.plant [.node c cs] := by
  have hsize := size_plant d [.node c []]
  unfold plant at hsize ⊢
  unfold adopt
  simp only [Tree.places, Tree.nodesAll, Tree.nodes, List.append_nil, Tree.countAll,
    Tree.count] at hsize ⊢
  simp only [hsize]
  rw [modify_append_size (by simp [size])]
  simp

/-- Making a section and adopting trees do not get into each other's way. -/
theorem adopt_setRoot (d : Document) (kind : TokenKind) (id parent : NodeId) (ts : List Tree) :
    (d.setRoot kind id).1.adopt parent ts = ((d.adopt parent ts).setRoot kind id).1 := by
  unfold setRoot
  cases Section.ofKind? kind with
  | none => rfl
  | some s =>
    have hroot : (d.adopt parent ts).root? s = d.root? s := by cases s <;> rfl
    simp only [hroot]
    split
    · rfl
    · cases s <;> rfl

/-- Setting a root adds no node. -/
theorem size_setRoot (d : Document) (kind : TokenKind) (id : NodeId) :
    (d.setRoot kind id).1.size = d.size := by
  unfold setRoot
  split
  · rfl
  · split
    · rfl
    · split <;> rfl

/-! ### Trees below nodes -/

/-- `Spans d roots ts ids`: the trees `ts` stand below the nodes `roots` of a document, and `ids`
are the places of their nodes from the top down. -/
inductive Spans (d : Document) : List NodeId → List Tree → List NodeId → Prop where
  | nil : Spans d [] [] []
  | cons {id : NodeId} {roots : List NodeId} {c : Content} {cs ts : List Tree}
      {below beside : List NodeId} (hid : id < d.size) (hc : (d.node id).toContent = c)
      (hbelow : Spans d (d.node id).children cs below) (hbeside : Spans d roots ts beside) :
      Spans d (id :: roots) (.node c cs :: ts) (id :: (below ++ beside))

private theorem Spans.lt_size {d : Document} {roots ids : List NodeId} {ts : List Tree}
    (h : Spans d roots ts ids) : ∀ id ∈ ids, id < d.size := by
  induction h with
  | nil => intro id hm; cases hm
  | cons hid hc hbelow hbeside ihbelow ihbeside =>
    intro id hm
    simp only [List.mem_cons, List.mem_append] at hm
    rcases hm with rfl | hm | hm
    · exact hid
    · exact ihbelow id hm
    · exact ihbeside id hm

/-- What a document says of a place, the parent aside. -/
def view (d : Document) (id : NodeId) : Content × List NodeId :=
  ((d.node id).toContent, (d.node id).children)

/-- What stands outside the places of trees does not matter to them. -/
theorem Spans.congr {d e : Document} {roots ids : List NodeId} {ts : List Tree}
    (h : Spans d roots ts ids) (hsize : e.size = d.size)
    (hview : ∀ id ∈ ids, e.view id = d.view id) : Spans e roots ts ids := by
  induction h with
  | nil => exact .nil
  | @cons id roots c cs ts below beside hid hc hbelow hbeside ihbelow ihbeside =>
    obtain ⟨hcontent, hchildren⟩ := Prod.ext_iff.mp (hview id (by simp))
    refine .cons (hsize ▸ hid) (hcontent.trans hc) ?_ (ihbeside fun i hi => hview i (by simp [hi]))
    rw [show (e.node id).children = (d.node id).children from hchildren]
    exact ihbelow fun i hi => hview i (by simp [hi])

/-- Trees side by side span the nodes of both. -/
theorem Spans.append {d : Document} {roots roots' ids ids' : List NodeId} {ts ts' : List Tree}
    (h : Spans d roots ts ids) (h' : Spans d roots' ts' ids') :
    Spans d (roots ++ roots') (ts ++ ts') (ids ++ ids') := by
  induction h with
  | nil => exact h'
  | cons hid hc hbelow hbeside ihbelow ihbeside =>
    simp only [List.cons_append, List.append_assoc]
    exact .cons hid hc hbelow ihbeside

/-- Trees that span no nodes are none. -/
theorem Spans.eq_nil {d : Document} {roots ids : List NodeId} {ts : List Tree}
    (h : Spans d roots ts ids) (hids : ids = []) : ts = [] := by
  cases h with
  | nil => rfl
  | cons => cases hids

/-- Following child links far enough gives the trees back. -/
theorem Spans.treeTo {d : Document} {roots ids : List NodeId} {ts : List Tree}
    (h : Spans d roots ts ids) {depth : Nat} (hdepth : ids.length ≤ depth + 1) :
    roots.map (d.treeTo depth) = ts := by
  induction h generalizing depth with
  | nil => rfl
  | @cons id roots c cs ts below beside hid hc hbelow hbeside ihbelow ihbeside =>
    simp only [List.length_cons, List.length_append] at hdepth
    rw [List.map_cons, ihbeside (by omega)]
    cases depth with
    | zero =>
      have hcs : cs = [] := hbelow.eq_nil (List.length_eq_zero_iff.mp (by omega))
      rw [Document.treeTo, hc, hcs]
    | succ depth => rw [Document.treeTo, hc, ihbelow (by omega)]

/-- Distinct nodes that are spanned are no more than the document has. -/
theorem Spans.length_le {d : Document} {roots ids : List NodeId} {ts : List Tree}
    (h : Spans d roots ts ids) (hn : ids.Nodup) : ids.length ≤ d.size := by
  have hle : ids.length ≤ (List.range d.size).length := by
    apply List.Subperm.length_le
    apply List.subperm_of_subset hn
    intro id hm
    exact List.mem_range.mpr (h.lt_size id hm)
  rwa [List.length_range] at hle

/-- The trees that stand below nodes, if no two of their nodes have the same place. -/
theorem Spans.tree {d : Document} {roots ids : List NodeId} {ts : List Tree}
    (h : Spans d roots ts ids) (hn : ids.Nodup) : roots.map d.tree = ts :=
  h.treeTo (Nat.le_succ_of_le (h.length_le hn))

/-- The first tree and the trees beside it. -/
theorem Spans.uncons {d : Document} {id : NodeId} {roots ids : List NodeId} {t : Tree}
    {ts : List Tree} (h : Spans d (id :: roots) (t :: ts) ids) :
    ∃ below beside, Spans d [id] [t] below ∧ Spans d roots ts beside ∧ ids = below ++ beside := by
  cases h with
  | @cons _ _ _ _ _ below beside hid hc hbelow hbeside =>
    have hsingle := Spans.cons hid hc hbelow .nil
    rw [List.append_nil] at hsingle
    exact ⟨id :: below, beside, hsingle, hbeside, rfl⟩

/-- Trees in another order stand below the nodes in that order. -/
theorem Spans.perm {d : Document} {F : NodeId → Tree} {roots roots' ids : List NodeId}
    (h : Spans d roots (roots.map F) ids) (hp : roots.Perm roots') :
    ∃ ids', ids.Perm ids' ∧ Spans d roots' (roots'.map F) ids' := by
  induction hp generalizing ids with
  | nil => exact ⟨ids, List.Perm.refl _, h⟩
  | cons id _ ih =>
    obtain ⟨below, beside, hid, hbeside, rfl⟩ := h.uncons
    obtain ⟨beside', hperm, hspans⟩ := ih hbeside
    exact ⟨below ++ beside', hperm.append_left below, hid.append hspans⟩
  | swap a b roots =>
    obtain ⟨belowb, rest, hb, hrest, rfl⟩ := h.uncons
    obtain ⟨belowa, beside, ha, hbeside, rfl⟩ := hrest.uncons
    refine ⟨belowa ++ (belowb ++ beside), ?_, ha.append (hb.append hbeside)⟩
    rw [← List.append_assoc, ← List.append_assoc]
    exact List.perm_append_comm.append_right beside
  | trans _ _ ih₁ ih₂ =>
    obtain ⟨ids₁, hperm₁, h₁⟩ := ih₁ h
    obtain ⟨ids₂, hperm₂, h₂⟩ := ih₂ h₁
    exact ⟨ids₂, hperm₁.trans hperm₂, h₂⟩

private theorem Spans.roots_sublist {d : Document} {roots ids : List NodeId} {ts : List Tree}
    (h : Spans d roots ts ids) : roots.Sublist ids := by
  induction h with
  | nil => exact List.Sublist.refl _
  | cons _ _ _ _ _ ihbeside => exact (ihbeside.trans (List.sublist_append_right ..)).cons_cons _

/-- Trees that are written down from a place on stand there. -/
theorem spans_of_nodesAll {d : Document} (ts : List Tree) (parent : Option NodeId) (id : NodeId)
    (h : ∀ i < Tree.countAll ts, d.nodes[id + i]? = (Tree.nodesAll parent id ts)[i]?) :
    Spans d (Tree.places id ts) ts (List.range' id (Tree.countAll ts)) := by
  induction ts using Tree.forest_induction generalizing parent id with
  | nil => exact .nil
  | cons c below beside ihbelow ihbeside =>
    simp only [Tree.countAll, Tree.count, Tree.nodesAll, Tree.nodes, List.cons_append] at h
    have htop := h 0 (by omega)
    simp only [Nat.add_zero, List.getElem?_cons_zero] at htop
    have hnode :
        d.node id = { toContent := c, parent, children := Tree.places (id + 1) below } := by
      rw [Document.node, htop, Option.getD_some]
    have hid : id < d.size := (Array.getElem?_eq_some_iff.mp htop).1
    have hbelow := ihbelow (some id) (id + 1) (by
      intro i hi
      have hat := h (i + 1) (by omega)
      rw [List.getElem?_cons_succ, List.getElem?_append_left (by rwa [Tree.length_nodesAll])] at hat
      rw [← hat, Nat.add_right_comm, Nat.add_assoc])
    have hbeside := ihbeside parent (id + (Tree.countAll below + 1)) (by
      intro i hi
      have hat := h (Tree.countAll below + i + 1) (by omega)
      rw [List.getElem?_cons_succ, List.getElem?_append_right (by rw [Tree.length_nodesAll]; omega),
        Tree.length_nodesAll] at hat
      rw [Nat.add_sub_cancel_left] at hat
      rw [← hat, Nat.add_assoc id, Nat.add_right_comm])
    have hrange : List.range' id (Tree.countAll below + 1 + Tree.countAll beside) =
        id :: (List.range' (id + 1) (Tree.countAll below) ++
          List.range' (id + (Tree.countAll below + 1)) (Tree.countAll beside)) := by
      rw [Nat.add_right_comm, List.range'_succ, Nat.add_comm (Tree.countAll below) 1,
        ← Nat.add_assoc, List.range'_append_1]
    rw [Tree.places, Tree.countAll, Tree.count, hrange]
    refine .cons hid (by rw [hnode]) ?_ hbeside
    rw [hnode]
    exact hbelow

/-! ### Documents that hold nothing but trees -/

/-- The place of the first tree of a kind, among trees that are written down from a place on. -/
def placeOf? (kind : TokenKind) (id : NodeId) : List Tree → Option NodeId
  | [] => none
  | t :: ts => if t.content.kind = kind then some id else placeOf? kind (id + t.count) ts

/-- The document of trees: their nodes in order, and the first tree of each kind as a section. -/
def ofForest (ts : List Tree) : Document where
  nodes := (Tree.nodesAll none 0 ts).toArray
  role := placeOf? .role 0 ts
  context := placeOf? .context 0 ts
  action := placeOf? .action 0 ts

/-- The tree of a section, if the section is there. -/
def sectionTree? (d : Document) (s : Section) : Option Tree := (d.root? s).map d.tree

/-- A forest is laid out in one node for each of its trees. -/
theorem size_ofForest (ts : List Tree) : (ofForest ts).size = Tree.countAll ts := by
  simp [ofForest, size, Tree.length_nodesAll]

/-- The roots of a forest are the first trees of their kinds. -/
theorem root?_ofForest (ts : List Tree) (s : Section) :
    (ofForest ts).root? s = placeOf? s.kind 0 ts := by
  cases s <;> rfl

/-- A forest is laid out in preorder. -/
theorem spans_ofForest (ts : List Tree) :
    Spans (ofForest ts) (Tree.places 0 ts) ts (List.range' 0 (Tree.countAll ts)) := by
  apply spans_of_nodesAll ts none 0
  intro i _
  simp [ofForest]

private theorem tree_placeOf? {d : Document} (kind : TokenKind) (ts : List Tree) (id : NodeId)
    (h : (Tree.places id ts).map d.tree = ts) :
    (placeOf? kind id ts).map d.tree = ts.find? (·.content.kind = kind) := by
  induction ts generalizing id with
  | nil => rfl
  | cons t ts ih =>
    simp only [Tree.places, List.map_cons, List.cons.injEq] at h
    by_cases hk : t.content.kind = kind
    · simp [placeOf?, hk, h.1]
    · simp [placeOf?, hk, ih _ h.2]

/-- The sections of a document of trees are the first trees of their kinds. -/
theorem sectionTree?_ofForest (ts : List Tree) (s : Section) :
    (ofForest ts).sectionTree? s = ts.find? (·.content.kind = s.kind) := by
  rw [sectionTree?, root?_ofForest]
  exact tree_placeOf? s.kind ts 0 ((spans_ofForest ts).tree List.nodup_range')

private theorem placeOf?_append (kind : TokenKind) (id : NodeId) (ts us : List Tree) :
    placeOf? kind id (ts ++ us) =
      (placeOf? kind id ts).or (placeOf? kind (id + Tree.countAll ts) us) := by
  induction ts generalizing id with
  | nil => simp [placeOf?, Tree.countAll]
  | cons t ts ih =>
    simp only [List.cons_append, placeOf?, Tree.countAll]
    split
    · rfl
    · rw [ih, Nat.add_assoc]

/-- A kind has no place exactly if no tree at the top is of it. -/
theorem placeOf?_eq_none_iff (kind : TokenKind) (id : NodeId) (ts : List Tree) :
    placeOf? kind id ts = none ↔ kind ∉ ts.map (·.content.kind) := by
  induction ts generalizing id with
  | nil => simp [placeOf?]
  | cons t ts ih =>
    by_cases hk : t.content.kind = kind
    · simp [placeOf?, hk]
    · simp [placeOf?, hk, ih, Ne.symm hk]

/-- A block is of the kind of a section. -/
theorem exists_section_kind {k : TokenKind} (hk : k.isBlock = true) :
    ∃ s : Section, s.kind = k := by
  cases k with
  | role => exact ⟨.role, rfl⟩
  | context => exact ⟨.context, rfl⟩
  | action => exact ⟨.action, rfl⟩
  | _ => cases hk

/-- One more tree of a new kind: it is planted, and its top node becomes the section. -/
theorem ofForest_concat {ts : List Tree} {t : Tree} (hk : t.content.kind.isBlock = true)
    (hnew : t.content.kind ∉ ts.map (·.content.kind)) :
    ofForest (ts ++ [t]) =
      (((ofForest ts).plant [t]).setRoot t.content.kind (ofForest ts).size).1 := by
  have hfree := (placeOf?_eq_none_iff t.content.kind 0 ts).mpr hnew
  have hplace (kind : TokenKind) : placeOf? kind 0 (ts ++ [t]) =
      if t.content.kind = kind then some (ofForest ts).size else placeOf? kind 0 ts := by
    rw [placeOf?_append, size_ofForest, placeOf?, placeOf?, Nat.zero_add]
    split
    · next he => rw [← he, hfree, Option.none_or]
    · rw [Option.or_none]
  have hnodes : Tree.nodesAll none 0 (ts ++ [t]) =
      Tree.nodesAll none 0 ts ++ Tree.nodesAll none (ofForest ts).size [t] := by
    rw [Tree.nodesAll_append, size_ofForest, Nat.zero_add]
  obtain ⟨s, hs⟩ := exists_section_kind hk
  have hslot : ((ofForest ts).plant [t]).root? s = none := by
    rw [← hs] at hfree
    cases s <;> exact hfree
  rw [setRoot, ← hs, Section.ofKind?_kind]
  simp only [hslot, Option.isSome_none, Bool.false_eq_true, if_false]
  cases s with
  | role => simp [ofForest, plant, hplace, hnodes, ← hs, Section.kind]
  | context => simp [ofForest, plant, hplace, hnodes, ← hs, Section.kind]
  | action => simp [ofForest, plant, hplace, hnodes, ← hs, Section.kind]

/-! ### Sections in the order they are written -/

/-- The trees of a document are those of its sections. -/
theorem trees_eq_sections (d : Document) : d.trees = Section.all.filterMap d.sectionTree? := by
  rw [trees, roots, List.map_filterMap]
  rfl

private theorem find?_filterMap_sections {tree? : Section → Option Tree}
    (h : ∀ s, ∀ t ∈ tree? s, t.content.kind = s.kind) (s : Section) (l : List Section) :
    (l.filterMap tree?).find? (·.content.kind = s.kind) = if s ∈ l then tree? s else none := by
  induction l with
  | nil => rfl
  | cons r l ih =>
    cases hr : tree? r with
    | none =>
      rw [List.filterMap_cons_none hr, ih]
      by_cases hs : s = r
      · simp [hs, hr]
      · simp [hs]
    | some t =>
      have hkind : t.content.kind = r.kind := h r t hr
      rw [List.filterMap_cons_some hr, List.find?_cons, ih, hkind]
      by_cases hs : s = r
      · simp [hs, hr]
      · have hne : r.kind ≠ s.kind := fun he => hs (Section.kind_injective he.symm)
        simp [hs, hne]

/-- Among the trees of sections, the first one of a section's kind is that of the section. -/
theorem find?_sections {tree? : Section → Option Tree}
    (h : ∀ s, ∀ t ∈ tree? s, t.content.kind = s.kind) (s : Section) :
    (Section.all.filterMap tree?).find? (·.content.kind = s.kind) = tree? s := by
  rw [find?_filterMap_sections h, if_pos (Section.mem_all s)]

/-- The trees of sections are of different kinds. -/
theorem nodup_sections {tree? : Section → Option Tree}
    (h : ∀ s, ∀ t ∈ tree? s, t.content.kind = s.kind) :
    ((Section.all.filterMap tree?).map (·.content.kind)).Nodup := by
  rw [List.Nodup, List.pairwise_map, List.pairwise_filterMap]
  have hall : Section.all.Nodup := by decide
  refine hall.imp fun {r s} hne => ?_
  intro t ht u hu he
  rw [h r t ht, h s u hu] at he
  exact hne (Section.kind_injective he)

private theorem mem_places_iff {ts : List Tree} (hdistinct : (ts.map (·.content.kind)).Nodup)
    (id i : NodeId) :
    i ∈ Tree.places id ts ↔ ∃ t ∈ ts, placeOf? t.content.kind id ts = some i := by
  induction ts generalizing id with
  | nil => simp [Tree.places]
  | cons t ts ih =>
    rw [List.map_cons, List.nodup_cons] at hdistinct
    have hlater (u : Tree) (hu : u ∈ ts) : placeOf? u.content.kind id (t :: ts) =
        placeOf? u.content.kind (id + t.count) ts := by
      rw [placeOf?, if_neg]
      intro he
      exact hdistinct.1 (he ▸ List.mem_map_of_mem hu)
    simp only [Tree.places, List.mem_cons, ih hdistinct.2, exists_eq_or_imp]
    refine or_congr ?_ (exists_congr fun u => and_congr_right fun hu => by rw [hlater u hu])
    simp [placeOf?, eq_comm]

private theorem nodup_roots_ofForest (ts : List Tree) : (ofForest ts).roots.Nodup := by
  have hkind {s : Section} {i : NodeId} (h : (ofForest ts).root? s = some i) :
      ((ofForest ts).tree i).content.kind = s.kind := by
    have htree := sectionTree?_ofForest ts s
    rw [sectionTree?, h, Option.map_some] at htree
    simpa using List.find?_some htree.symm
  have hall : Section.all.Nodup := by decide
  rw [roots, List.Nodup, List.pairwise_filterMap]
  refine hall.imp fun {r s} hne => ?_
  rintro i hr j hs rfl
  exact hne (Section.kind_injective ((hkind hr).symm.trans (hkind hs)))

private theorem perm_roots_ofForest {ts : List Tree}
    (hk : ∀ t ∈ ts, t.content.kind.isBlock = true)
    (hdistinct : (ts.map (·.content.kind)).Nodup) :
    (Tree.places 0 ts).Perm (ofForest ts).roots := by
  have hn : (List.range' 0 (Tree.countAll ts)).Nodup := List.nodup_range'
  refine (List.perm_ext_iff_of_nodup (hn.sublist (spans_ofForest ts).roots_sublist)
    (nodup_roots_ofForest ts)).mpr fun i => ?_
  rw [mem_places_iff hdistinct, roots, List.mem_filterMap]
  simp only [root?_ofForest]
  constructor
  · rintro ⟨t, ht, hplace⟩
    obtain ⟨s, hs⟩ := exists_section_kind (hk t ht)
    exact ⟨s, Section.mem_all s, by rw [hs, hplace]⟩
  · rintro ⟨s, -, hplace⟩
    have hkind : s.kind ∈ ts.map (·.content.kind) := by
      by_contra hnone
      rw [(placeOf?_eq_none_iff s.kind 0 ts).mpr hnone] at hplace
      cases hplace
    obtain ⟨t, ht, he⟩ := List.mem_map.mp hkind
    exact ⟨t, ht, by rw [he, hplace]⟩

/-- The sections of a document of trees are the trees, each once. -/
theorem trees_perm_ofForest {ts : List Tree} (hk : ∀ t ∈ ts, t.content.kind.isBlock = true)
    (hdistinct : (ts.map (·.content.kind)).Nodup) : (ofForest ts).trees.Perm ts := by
  have hperm := (perm_roots_ofForest hk hdistinct).map (ofForest ts).tree
  rw [(spans_ofForest ts).tree List.nodup_range'] at hperm
  exact hperm.symm

/-- The sections of a document of trees, in the order they are written, have places of their own. -/
theorem spans_roots_ofForest {ts : List Tree} (hk : ∀ t ∈ ts, t.content.kind.isBlock = true)
    (hdistinct : (ts.map (·.content.kind)).Nodup) :
    ∃ ids, Spans (ofForest ts) (ofForest ts).roots (ofForest ts).trees ids ∧ ids.Nodup := by
  have hn : (List.range' 0 (Tree.countAll ts)).Nodup := List.nodup_range'
  have htrees : Spans (ofForest ts) (Tree.places 0 ts)
      ((Tree.places 0 ts).map (ofForest ts).tree) (List.range' 0 (Tree.countAll ts)) := by
    rw [(spans_ofForest ts).tree hn]
    exact spans_ofForest ts
  obtain ⟨ids, hids, hroots⟩ := htrees.perm (perm_roots_ofForest hk hdistinct)
  exact ⟨ids, hroots, hids.nodup_iff.mp hn⟩

end Document

end PromptOutline
