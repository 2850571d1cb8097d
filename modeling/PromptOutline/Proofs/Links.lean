import PromptOutline.Proofs.Inert
import PromptOutline.Proofs.Joining
import PromptOutline.Proofs.Taking

/-!
# Links between nodes

A node has its parent and its children written down, so every link stands in a document twice.
`Linked` says that the two agree, that children come in the order they were added and behind their
parent, and that sections have no parent. The builder keeps documents linked whatever it reads.
Where it reports nothing, every node without a parent is a section, and then every node is reached
from one section in one way.
-/

namespace PromptOutline

namespace Document

variable {d : Document}

/-! ### Adding nodes -/

/-- Add a node behind the other children of a parent. -/
def addChild (d : Document) (parent : NodeId) (c : Content) : Document :=
  (d.add c).1.append parent (d.add c).2

/-- Behind the last place there is no node. -/
theorem node_of_size_le {i : NodeId} (h : d.size ≤ i) : d.node i = default := by
  rw [node, Array.getElem?_eq_none h, Option.getD_none]

/-- A node that is added is one more. -/
@[simp] theorem size_add (d : Document) (c : Content) : (d.add c).1.size = d.size + 1 :=
  Array.size_push ..

/-- A child that is added is one more node. -/
@[simp] theorem size_addChild (d : Document) (parent : NodeId) (c : Content) :
    (d.addChild parent c).size = d.size + 1 := by
  simp [addChild, append, modify, add, size]

private theorem node_add (d : Document) (c : Content) (i : NodeId) :
    (d.add c).1.node i = if i = d.size then { toContent := c } else d.node i := by
  by_cases h : i = d.size
  · rw [if_pos h, h]
    simp [node, add, size]
  · have hne : i ≠ d.nodes.size := h
    rw [if_neg h]
    simp [node, add, Array.getElem?_push, hne]

/-- A node that is added has its content, and the others keep theirs. -/
theorem content_add (d : Document) (c : Content) (i : NodeId) :
    ((d.add c).1.node i).toContent = if i = d.size then c else (d.node i).toContent := by
  rw [node_add]
  split <;> rfl

private theorem parent_add (d : Document) (c : Content) (i : NodeId) :
    ((d.add c).1.node i).parent = (d.node i).parent := by
  rw [node_add]
  split
  · next hi => rw [node_of_size_le (Nat.le_of_eq hi.symm)]; rfl
  · rfl

/-- Adding a node leaves the children of all nodes as they are. -/
theorem children_add (d : Document) (c : Content) (i : NodeId) :
    ((d.add c).1.node i).children = (d.node i).children := by
  rw [node_add]
  split
  · next hi => rw [node_of_size_le (Nat.le_of_eq hi.symm)]; rfl
  · rfl

private theorem node_addChild {parent : NodeId} (h : parent < d.size) (c : Content) (i : NodeId) :
    (d.addChild parent c).node i =
      if i = d.size then { toContent := c, parent := some parent }
      else if i = parent then
        { d.node parent with children := (d.node parent).children ++ [d.size] }
      else d.node i := by
  have hne : parent ≠ d.size := Nat.ne_of_lt h
  have hchild (j : NodeId) : ((d.add c).1.modify d.size fun n =>
      { n with parent := some parent }).node j =
      if j = d.size then { toContent := c, parent := some parent } else d.node j := by
    by_cases hj : j = d.size
    · subst hj
      rw [node_modify_self (by simp), node_add, if_pos rfl, if_pos rfl]
    · rw [node_modify_of_ne hj, node_add, if_neg hj, if_neg hj]
  change (Document.modify _ parent _).node i = _
  by_cases hi : i = parent
  · subst hi
    rw [node_modify_self, if_neg hne, if_pos rfl]
    · change ({ ((d.add c).1.modify d.size fun n => { n with parent := some i }).node i with
        children := (((d.add c).1.modify d.size fun n =>
          { n with parent := some i }).node i).children ++ [d.size] } : Node) = _
      rw [hchild, if_neg hne]
    · simpa [modify, add, size] using Nat.lt_succ_of_lt h
  · rw [node_modify_of_ne hi, if_neg hi]
    exact hchild i

/-- A child that is added has its content, and the others keep theirs. -/
theorem content_addChild {parent : NodeId} (h : parent < d.size) (c : Content) (i : NodeId) :
    ((d.addChild parent c).node i).toContent = if i = d.size then c else (d.node i).toContent := by
  rw [node_addChild h]
  split
  · rfl
  · split
    · next hi => rw [hi]
    · rfl

private theorem parent_addChild {parent : NodeId} (h : parent < d.size) (c : Content) (i : NodeId) :
    ((d.addChild parent c).node i).parent =
      if i = d.size then some parent else (d.node i).parent := by
  rw [node_addChild h]
  split
  · rfl
  · split
    · next hi => rw [hi]
    · rfl

/-- A child that is added is the last one of its parent, and no other node gets a child. -/
theorem children_addChild {parent : NodeId} (h : parent < d.size) (c : Content) (i : NodeId) :
    ((d.addChild parent c).node i).children =
      if i = parent then (d.node i).children ++ [d.size] else (d.node i).children := by
  rw [node_addChild h]
  by_cases hi : i = d.size
  · rw [if_pos hi, if_neg (hi ▸ Nat.ne_of_gt h), node_of_size_le (Nat.le_of_eq hi.symm)]
    rfl
  · rw [if_neg hi]
    split
    · next hp => rw [hp]
    · rfl

/-- Adding a node sets no root. -/
theorem root?_add (d : Document) (c : Content) (s : Section) : (d.add c).1.root? s = d.root? s := by
  cases s <;> rfl

/-- Adding a child sets no root. -/
theorem root?_addChild (d : Document) (parent : NodeId) (c : Content) (s : Section) :
    (d.addChild parent c).root? s = d.root? s := by
  cases s <;> rfl

/-- Setting a root leaves all nodes as they are. -/
theorem node_setRoot (d : Document) (kind : TokenKind) (id : NodeId) :
    (d.setRoot kind id).1.node = d.node := by
  unfold setRoot
  split
  · rfl
  · split
    · rfl
    · split <;> rfl

/-- A root that was free is set, and the others stay. -/
theorem root?_setRoot {s : Section} {kind : TokenKind} (hs : s.kind = kind)
    (hfree : d.root? s = none) (id : NodeId) (r : Section) :
    (d.setRoot kind id).1.root? r = if r = s then some id else d.root? r := by
  rw [setRoot, ← hs, Section.ofKind?_kind]
  simp only [hfree, Option.isSome_none, Bool.false_eq_true, if_false]
  cases s <;> cases r <;> rfl

/-- A root that is set stays. -/
theorem setRoot_of_root? {s : Section} {kind : TokenKind} {i : NodeId} (hs : s.kind = kind)
    (hroot : d.root? s = some i) (id : NodeId) : (d.setRoot kind id).1 = d := by
  rw [setRoot, ← hs, Section.ofKind?_kind]
  simp only [hroot, Option.isSome_some, if_true]

/-! ### Links that agree -/

/-- Parents and children agree, children stand in order behind their parents, and sections are
blocks of their kinds without a parent. -/
structure Linked (d : Document) : Prop where
  parent_iff : ∀ p i, (d.node i).parent = some p ↔ i ∈ (d.node p).children
  ordered : ∀ p, (d.node p).children.Pairwise (· < ·)
  behind : ∀ p, ∀ i ∈ (d.node p).children, p < i
  root : ∀ s i, d.root? s = some i →
    i < d.size ∧ (d.node i).parent = none ∧ (d.node i).kind = s.kind

/-- Every node without a parent is a section. -/
def Complete (d : Document) : Prop :=
  ∀ i < d.size, (d.node i).parent = none → ∃ s, d.root? s = some i

namespace Linked

/-- A child lies in the document. -/
theorem lt_size (h : d.Linked) {p i : NodeId} (hi : i ∈ (d.node p).children) : i < d.size := by
  by_contra hle
  have hparent := (h.parent_iff p i).mpr hi
  rw [node_of_size_le (Nat.le_of_not_lt hle)] at hparent
  cases hparent

private theorem empty : Linked {} where
  parent_iff p i := by simp [node, default, instInhabitedNode.default]
  ordered p := by simp [node, default, instInhabitedNode.default]
  behind p i hi := by simp [node, default, instInhabitedNode.default] at hi
  root s i hi := by cases s <;> cases hi

private theorem add (h : d.Linked) (c : Content) : (d.add c).1.Linked where
  parent_iff p i := by rw [parent_add, children_add, h.parent_iff]
  ordered p := by rw [children_add]; exact h.ordered p
  behind p i hi := by rw [children_add] at hi; exact h.behind p i hi
  root s i hi := by
    rw [root?_add] at hi
    obtain ⟨hlt, hparent, hkind⟩ := h.root s i hi
    rw [size_add, parent_add, content_add, if_neg (Nat.ne_of_lt hlt)]
    exact ⟨Nat.lt_succ_of_lt hlt, hparent, hkind⟩

private theorem addChild (h : d.Linked) {parent : NodeId} (hp : parent < d.size) (c : Content) :
    (d.addChild parent c).Linked where
  parent_iff p i := by
    rw [parent_addChild hp, children_addChild hp]
    have hold : i = d.size → i ∉ (d.node p).children := fun hi hm =>
      absurd (h.lt_size hm) (hi ▸ Nat.lt_irrefl _)
    have hiff := h.parent_iff p i
    grind
  ordered p := by
    rw [children_addChild hp]
    split
    · refine List.pairwise_append.mpr ⟨h.ordered p, List.pairwise_singleton _ _, ?_⟩
      intro i hi j hj
      rw [List.mem_singleton.mp hj]
      exact h.lt_size hi
    · exact h.ordered p
  behind p i hi := by
    rw [children_addChild hp] at hi
    split at hi
    · next he =>
      rcases List.mem_append.mp hi with hi | hi
      · exact h.behind p i hi
      · rw [List.mem_singleton.mp hi, he]
        exact hp
    · exact h.behind p i hi
  root s i hi := by
    rw [root?_addChild] at hi
    obtain ⟨hlt, hparent, hkind⟩ := h.root s i hi
    have hne : i ≠ d.size := Nat.ne_of_lt hlt
    rw [size_addChild, parent_addChild hp, content_addChild hp, if_neg hne, if_neg hne]
    exact ⟨Nat.lt_succ_of_lt hlt, hparent, hkind⟩

private theorem setRoot (h : d.Linked) {s : Section} {kind : TokenKind} {id : NodeId}
    (hs : s.kind = kind)
    (hfree : d.root? s = none) (hid : id < d.size) (hparent : (d.node id).parent = none)
    (hkind : (d.node id).kind = kind) : (d.setRoot kind id).1.Linked where
  parent_iff := by rw [node_setRoot]; exact h.parent_iff
  ordered := by rw [node_setRoot]; exact h.ordered
  behind := by rw [node_setRoot]; exact h.behind
  root r i hi := by
    rw [root?_setRoot hs hfree] at hi
    rw [node_setRoot, size_setRoot]
    split at hi
    · next hr =>
      cases hi
      exact ⟨hid, hparent, by rw [hkind, hr, hs]⟩
    · exact h.root r i hi

end Linked

/-! ### Ways from the sections -/

/-- The node that a way leads to: from a section on, each number says which child to go to. -/
def follow? (d : Document) (s : Section) (way : List Nat) : Option NodeId :=
  (d.root? s).bind fun id => way.foldlM (fun id n => (d.node id).children[n]?) id

/-- A way without turns ends at the root. -/
theorem follow?_nil (d : Document) (s : Section) : d.follow? s [] = d.root? s := by
  cases h : d.root? s <;> simp [follow?, h]

/-- A way with one more turn ends at that child of where it ended. -/
theorem follow?_concat (d : Document) (s : Section) (way : List Nat) (n : Nat) :
    d.follow? s (way ++ [n]) = (d.follow? s way).bind fun id => (d.node id).children[n]? := by
  cases h : d.root? s <;> simp [follow?, h, List.foldlM_append]

namespace Linked

/-- No two ways lead to the same node. -/
theorem follow?_injective (h : d.Linked) {r s : Section} {v w : List Nat} {i : NodeId}
    (hv : d.follow? r v = some i) (hw : d.follow? s w = some i) : r = s ∧ v = w := by
  -- the last link of a way tells the parent, which a section has not
  have hlast {s : Section} {w : List Nat} {n : Nat} {i : NodeId}
      (hw : d.follow? s (w ++ [n]) = some i) :
      ∃ p, d.follow? s w = some p ∧ (d.node p).children[n]? = some i ∧
        (d.node i).parent = some p := by
    rw [follow?_concat, Option.bind_eq_some_iff] at hw
    obtain ⟨p, hp, hi⟩ := hw
    exact ⟨p, hp, hi, (h.parent_iff p i).mpr (List.mem_of_getElem? hi)⟩
  induction v using List.reverseRecOn generalizing i s w with
  | nil =>
    rw [follow?_nil] at hv
    obtain ⟨-, hnone, hkind⟩ := h.root r i hv
    cases w using List.reverseRecOn with
    | nil =>
      rw [follow?_nil] at hw
      obtain ⟨-, -, hkind'⟩ := h.root s i hw
      exact ⟨Section.kind_injective (hkind.symm.trans hkind'), rfl⟩
    | append_singleton w n =>
      obtain ⟨p, -, -, hparent⟩ := hlast hw
      cases hnone.symm.trans hparent
  | append_singleton v m ih =>
    obtain ⟨p, hp, hi, hparent⟩ := hlast hv
    cases w using List.reverseRecOn with
    | nil =>
      rw [follow?_nil] at hw
      cases (h.root s i hw).2.1.symm.trans hparent
    | append_singleton w n =>
      obtain ⟨q, hq, hi', hparent'⟩ := hlast hw
      obtain rfl : p = q := Option.some.inj (hparent.symm.trans hparent')
      obtain ⟨rfl, rfl⟩ := ih hp hq
      have hnodup : (d.node p).children.Nodup := (h.ordered p).imp Nat.ne_of_lt
      obtain ⟨hm, hmi⟩ := List.getElem?_eq_some_iff.mp hi
      obtain ⟨hn, hni⟩ := List.getElem?_eq_some_iff.mp hi'
      obtain rfl : m = n := (hnodup.getElem_inj_iff).mp (hmi.trans hni.symm)
      exact ⟨rfl, rfl⟩

/-- Where every node without a parent is a section, one way leads to each node. -/
theorem existsUnique_follow? (h : d.Linked) (hc : d.Complete) {i : NodeId} (hi : i < d.size) :
    ∃! way : Section × List Nat, d.follow? way.1 way.2 = some i := by
  -- a parent stands before its children, so ways to all earlier nodes are there
  have hexists : ∃ s w, d.follow? s w = some i := by
    induction i using Nat.strongRecOn with
    | _ i ih =>
      cases hparent : (d.node i).parent with
      | none =>
        obtain ⟨s, hs⟩ := hc i hi hparent
        exact ⟨s, [], (follow?_nil d s).trans hs⟩
      | some p =>
        have hmem := (h.parent_iff p i).mp hparent
        obtain ⟨n, hn⟩ := List.mem_iff_getElem?.mp hmem
        have hlt := h.behind p i hmem
        obtain ⟨s, w, hw⟩ := ih p hlt (Nat.lt_trans hlt hi)
        exact ⟨s, w ++ [n], by rw [follow?_concat, hw]; exact hn⟩
  obtain ⟨s, w, hw⟩ := hexists
  refine ⟨(s, w), hw, fun other hother => ?_⟩
  obtain ⟨hs, hw'⟩ := h.follow?_injective hother hw
  exact Prod.ext hs hw'

end Linked

/-! ### The shape of blocks -/

/-- The kinds of the children of a node, in order. -/
def kindsBelow (d : Document) (i : NodeId) : List TokenKind :=
  (d.node i).children.map fun j => (d.node j).kind

/-- The kinds of children that a node of kind `k` may have: at most one name, then texts, then, in a
context, contexts. -/
def ShapeOf (k : TokenKind) (kinds : List TokenKind) : Prop :=
  ∃ names texts nested, names ≤ 1 ∧ (nested = 0 ∨ k = .context) ∧
    kinds = List.replicate names .keywordText ++
      (List.replicate texts .text ++ List.replicate nested .context)

private theorem ShapeOf.nil (k : TokenKind) : ShapeOf k [] := ⟨0, 0, 0, by omega, .inl rfl, rfl⟩

/-- A node that loses children keeps its shape. -/
theorem ShapeOf.sublist {k : TokenKind} {kinds kinds' : List TokenKind} (h : ShapeOf k kinds)
    (hsub : kinds'.Sublist kinds) : ShapeOf k kinds' := by
  obtain ⟨names, texts, nested, hnames, hnested, rfl⟩ := h
  obtain ⟨as, rest, rfl, has, hrest⟩ := List.sublist_append_iff.mp hsub
  obtain ⟨bs, cs, rfl, hbs, hcs⟩ := List.sublist_append_iff.mp hrest
  obtain ⟨a, ha, rfl⟩ := List.sublist_replicate_iff.mp has
  obtain ⟨b, hb, rfl⟩ := List.sublist_replicate_iff.mp hbs
  obtain ⟨c, hc, rfl⟩ := List.sublist_replicate_iff.mp hcs
  exact ⟨a, b, c, by omega, hnested.imp (fun h0 => by omega) id, rfl⟩

private theorem kindsBelow_add (h : d.Linked) (c : Content) (i : NodeId) :
    (d.add c).1.kindsBelow i = d.kindsBelow i := by
  rw [kindsBelow, children_add]
  refine List.map_congr_left fun j hj => ?_
  rw [content_add, if_neg (Nat.ne_of_lt (h.lt_size hj))]

private theorem kindsBelow_addChild (h : d.Linked) {parent : NodeId} (hp : parent < d.size)
    (c : Content)
    (i : NodeId) :
    (d.addChild parent c).kindsBelow i =
      if i = parent then d.kindsBelow i ++ [c.kind] else d.kindsBelow i := by
  have hold : (d.node i).children.map (fun j => ((d.addChild parent c).node j).kind) =
      d.kindsBelow i := by
    refine List.map_congr_left fun j hj => ?_
    rw [content_addChild hp, if_neg (Nat.ne_of_lt (h.lt_size hj))]
  rw [kindsBelow, children_addChild hp]
  split
  · rw [List.map_append, hold, List.map_singleton, content_addChild hp, if_pos rfl]
  · exact hold

end Document

/-! ### What the builder keeps -/

/-- The kinds of children that an open block has in a phase. -/
def Phase.Below : Phase → List TokenKind → Prop
  | keyword, kinds => kinds = []
  | name, kinds => kinds = [.keywordText]
  | body false, kinds => ∃ names texts, names ≤ 1 ∧
      kinds = List.replicate names .keywordText ++ List.replicate texts .text
  | body true, _ => True

namespace Builder

open Document

/-- What holds of a builder at any time: its document is linked, blocks have the shape of their kind
and other nodes no children, and each open block has what its phase says. As long as there is no
problem, every node without a parent is a section. -/
structure Sound (b : Builder) : Prop where
  linked : b.document.Linked
  shape : ∀ i, ShapeOf (b.document.node i).kind (b.document.kindsBelow i)
  leaf : ∀ i, (b.document.node i).kind.isBlock = false → (b.document.node i).children = []
  frame : ∀ f ∈ b.frames, f.block < b.document.size ∧ (b.document.node f.block).kind = f.kind ∧
    f.kind.isBlock = true ∧ f.phase.Below (b.document.kindsBelow f.block)
  distinct : (b.frames.map (·.block)).Nodup
  complete : b.problems = [] → b.document.Complete

namespace Sound

variable {b : Builder}

/-- The empty builder is sound. -/
theorem empty : Sound {} where
  linked := .empty
  shape i := by
    rw [kindsBelow, node_of_size_le (Nat.zero_le i)]
    exact .nil _
  leaf i _ := by rw [node_of_size_le (Nat.zero_le i)]; rfl
  frame f hf := by cases hf
  distinct := List.nodup_nil
  complete _ i hi := by cases hi

/-- Problems change nothing but what they promise. -/
theorem note (h : Sound b) (d : Diagnostic) : Sound (b.note d) where
  linked := h.linked
  shape := h.shape
  leaf := h.leaf
  frame := h.frame
  distinct := h.distinct
  complete hp := by simp [Builder.note] at hp

private theorem body_of_start {f : Frame} {kinds : List TokenKind}
    (hphase : f.phase = .keyword ∨ f.phase = .name) (h : f.phase.Below kinds) :
    (Phase.body false).Below kinds := by
  rcases hphase with hphase | hphase
  · rw [hphase] at h
    exact ⟨0, 0, by omega, h⟩
  · rw [hphase] at h
    exact ⟨1, 0, by omega, h⟩

/-- Open blocks may be closed, or the innermost one may go on with its body. -/
theorem withFrames {f : Frame} {outer frames : List Frame} (h : Sound b)
    (hframes : b.frames = f :: outer)
    (hnew : frames = outer ∨ (f.phase = .keyword ∨ f.phase = .name) ∧
      frames = { f with phase := .body false } :: outer) : Sound { b with frames } where
  linked := h.linked
  shape := h.shape
  leaf := h.leaf
  frame g hg := by
    have hold := h.frame
    rw [hframes] at hold
    rcases hnew with rfl | ⟨hphase, rfl⟩
    · exact hold g (List.mem_cons_of_mem f hg)
    · rcases List.mem_cons.mp hg with rfl | hg
      · obtain ⟨hlt, hkind, hblock, hbelow⟩ := hold f List.mem_cons_self
        exact ⟨hlt, hkind, hblock, body_of_start hphase hbelow⟩
      · exact hold g (List.mem_cons_of_mem f hg)
  distinct := by
    have hold := h.distinct
    rw [hframes] at hold
    rcases hnew with rfl | ⟨-, rfl⟩
    · exact (List.nodup_cons.mp hold).2
    · exact hold
  complete := h.complete

/-- A token below the innermost open block, which goes on in another phase. -/
theorem added {f : Frame} {outer : List Frame} (h : Sound b) (hframes : b.frames = f :: outer)
    (t : Token) (phase : Phase)
    (hshape : ShapeOf f.kind (b.document.kindsBelow f.block ++ [t.kind]))
    (hphase : phase.Below (b.document.kindsBelow f.block ++ [t.kind])) :
    Sound { b with
      document := b.document.addChild f.block (.ofToken t),
      frames := { f with phase } :: outer } := by
  have hold := h.frame
  have hdistinct := h.distinct
  rw [hframes] at hold hdistinct
  obtain ⟨hlt, hkind, hblock, -⟩ := hold f List.mem_cons_self
  have hbelow := kindsBelow_addChild h.linked hlt (.ofToken t)
  have hcontent := content_addChild hlt (.ofToken t)
  refine ⟨h.linked.addChild hlt _, fun i => ?_, fun i hi => ?_, fun g hg => ?_, hdistinct,
    fun hp i hi hparent => ?_⟩
  · rw [hbelow, hcontent]
    by_cases hf : i = f.block
    · subst hf
      rw [if_pos rfl, if_neg (Nat.ne_of_lt hlt), hkind]
      exact hshape
    · rw [if_neg hf]
      split
      · next hi =>
        rw [kindsBelow, node_of_size_le (Nat.le_of_eq hi.symm)]
        exact .nil _
      · exact h.shape i
  · rw [hcontent] at hi
    rw [children_addChild hlt]
    split at hi
    · next he =>
      rw [if_neg (he ▸ Nat.ne_of_gt hlt), node_of_size_le (Nat.le_of_eq he.symm)]
      rfl
    · rw [if_neg, h.leaf i hi]
      rintro rfl
      rw [hkind, hblock] at hi
      cases hi
  · simp only [size_addChild, hbelow, hcontent]
    rcases List.mem_cons.mp hg with rfl | hg
    · rw [if_pos rfl, if_neg (Nat.ne_of_lt hlt)]
      exact ⟨Nat.lt_succ_of_lt hlt, hkind, hblock, hphase⟩
    · obtain ⟨hlt', hkind', hblock', hbelow'⟩ := hold g (List.mem_cons_of_mem f hg)
      have hne : g.block ≠ f.block := fun he =>
        (List.nodup_cons.mp hdistinct).1 (List.mem_map.mpr ⟨g, hg, he⟩)
      rw [if_neg hne, if_neg (Nat.ne_of_lt hlt')]
      exact ⟨Nat.lt_succ_of_lt hlt', hkind', hblock', hbelow'⟩
  · rw [parent_addChild hlt] at hparent
    split at hparent
    · cases hparent
    · next hne =>
      rw [size_addChild] at hi
      have hold : i < b.document.size := Nat.lt_of_le_of_ne (Nat.le_of_lt_succ hi) hne
      obtain ⟨s, hs⟩ := h.complete hp i hold hparent
      exact ⟨s, by rw [root?_addChild]; exact hs⟩

/-- One more open block, whose node was added last and has no children. -/
theorem opened (id : NodeId) (k : TokenKind) (h : Sound b) (hid : id < b.document.size)
    (hkind : (b.document.node id).kind = k) (hblock : k.isBlock = true)
    (hnew : id ∉ b.frames.map (·.block)) (hnone : b.document.kindsBelow id = []) :
    Sound { b with frames := ⟨id, k, .keyword⟩ :: b.frames } where
  linked := h.linked
  shape := h.shape
  leaf := h.leaf
  frame g hg := by
    rcases List.mem_cons.mp hg with rfl | hg
    · exact ⟨hid, hkind, hblock, hnone⟩
    · exact h.frame g hg
  distinct := List.nodup_cons.mpr ⟨hnew, h.distinct⟩
  complete := h.complete

/-- A node at the top, without a parent. It leaves the document complete if it is made a section. -/
theorem planted (h : Sound b) (t : Token) {d : Document}
    (hlinked : d.Linked) (hsize : d.size = b.document.size + 1)
    (hnode : d.node = (b.document.add (.ofToken t)).1.node) {problems : List Diagnostic}
    (hcomplete : problems = [] → d.Complete) (hblock : t.kind.isBlock = true) :
    Sound { document := d, problems, frames := [⟨b.document.size, t.kind, .keyword⟩] } := by
  have hbelow (i : NodeId) : d.kindsBelow i = b.document.kindsBelow i := by
    rw [← kindsBelow_add h.linked (.ofToken t), kindsBelow, kindsBelow, hnode]
  have hnone : d.kindsBelow b.document.size = [] := by
    rw [hbelow, kindsBelow, node_of_size_le (Nat.le_refl _)]
    rfl
  have hcontent (i : NodeId) := content_add b.document (.ofToken t) i
  have hkind : (d.node b.document.size).kind = t.kind := by
    rw [hnode, hcontent, if_pos rfl]
    rfl
  have hclosed : Sound { document := d, problems, frames := [] } := by
    refine ⟨hlinked, fun i => ?_, fun i hi => ?_, fun f hf => (nomatch hf), List.nodup_nil,
      hcomplete⟩
    · by_cases he : i = b.document.size
      · rw [he, hnone]
        exact .nil _
      · rw [hbelow, hnode, hcontent, if_neg he]
        exact h.shape i
    · rw [hnode] at hi ⊢
      rw [children_add]
      by_cases he : i = b.document.size
      · rw [node_of_size_le (Nat.le_of_eq he.symm)]
        rfl
      · rw [hcontent, if_neg he] at hi
        exact h.leaf i hi
  exact hclosed.opened _ _ (hsize ▸ Nat.lt_succ_self _) hkind hblock (by simp) hnone

private theorem taken {t : Token} {b' : Builder} (h : Sound b) (ht : Taken b t b') : Sound b' := by
  have hisBlock {s : Section} (hs : s.kind = t.kind) : t.kind.isBlock = true := by
    rw [← hs, ← Section.isSome_ofKind?, Section.ofKind?_kind]
    rfl
  have hadded := h.linked.add (.ofToken t)
  cases ht with
  | @opened s hframes hs hfree =>
    have hfree' : (b.document.add (.ofToken t)).1.root? s = none := by rw [root?_add, hfree]
    refine h.planted t (d := ((b.document.add (.ofToken t)).1.setRoot t.kind b.document.size).1)
      (hadded.setRoot hs hfree' (by simp) ?_ ?_) ?_ (node_setRoot ..) (fun hp i hi hparent => ?_)
      (hisBlock hs)
    · rw [parent_add, node_of_size_le (Nat.le_refl _)]
      rfl
    · rw [content_add, if_pos rfl]
      rfl
    · rw [size_setRoot, size_add]
    · rw [node_setRoot, parent_add] at hparent
      rw [size_setRoot, size_add] at hi
      simp only [root?_setRoot hs hfree', root?_add]
      by_cases he : i = b.document.size
      · exact ⟨s, by rw [if_pos rfl, he]⟩
      · have hold : i < b.document.size := Nat.lt_of_le_of_ne (Nat.le_of_lt_succ hi) he
        obtain ⟨r, hr⟩ := h.complete hp i hold hparent
        refine ⟨r, ?_⟩
        rw [if_neg, hr]
        rintro rfl
        cases hfree.symm.trans hr
  | @repeated s id message hframes hs hroot =>
    have hroot' : (b.document.add (.ofToken t)).1.root? s = some id := by rw [root?_add, hroot]
    have hsame := setRoot_of_root? hs hroot' b.document.size
    refine h.planted t (d := ((b.document.add (.ofToken t)).1.setRoot t.kind b.document.size).1)
      (by rw [hsame]; exact hadded) (by rw [size_setRoot, size_add]) (node_setRoot ..)
      (fun hp => ?_) (hisBlock hs)
    simp [report, Builder.note] at hp
  | ended => exact h
  | @named f outer hframes hphase hkind =>
    have hbelow := (h.frame f (by simp [hframes])).2.2.2
    rw [hphase] at hbelow
    refine h.added hframes t .name ?_ ?_
    · rw [show b.document.kindsBelow f.block = [] from hbelow, hkind]
      exact ⟨1, 0, 0, by omega, .inl rfl, rfl⟩
    · rw [show b.document.kindsBelow f.block = [] from hbelow, hkind]
      rfl
  | @begun f outer hframes hphase hkind => exact h.withFrames hframes (.inr ⟨hphase, rfl⟩)
  | @text f outer hframes hphase hkind =>
    have hbelow := (h.frame f (by simp [hframes])).2.2.2
    rw [hphase] at hbelow
    obtain ⟨names, texts, hnames, heq⟩ := hbelow
    have hmore : b.document.kindsBelow f.block ++ [t.kind] =
        List.replicate names .keywordText ++ List.replicate (texts + 1) .text := by
      rw [heq, hkind, List.append_assoc, ← List.replicate_succ']
    have hframe : ({ f with phase := .body false } : Frame) :: outer = b.frames := by
      rw [hframes, ← hphase]
    have hsound := h.added hframes t (.body false)
      (by rw [hmore]; exact ⟨names, texts + 1, 0, hnames, .inl rfl, by simp⟩)
      (by rw [hmore]; exact ⟨names, texts + 1, hnames, rfl⟩)
    rw [hframe] at hsound
    exact hsound
  | @nested f outer seen hframes hphase hkind houter =>
    have hold := h.frame f (by simp [hframes])
    have hshape := h.shape f.block
    rw [hold.2.1, houter] at hshape
    obtain ⟨names, texts, nested, hnames, -, heq⟩ := hshape
    have hsound := h.added hframes t (.body true)
      (by
        rw [heq, hkind, houter]
        exact ⟨names, texts, nested + 1, hnames, .inr rfl, by
          simp [List.append_assoc, ← List.replicate_succ']⟩)
      trivial
    refine hsound.opened b.document.size t.kind (by simp) ?_ (by rw [hkind]; rfl) ?_
      ?_
    · rw [content_addChild hold.1, if_pos rfl]
      rfl
    · intro hm
      obtain ⟨g, hg, hlt⟩ := List.mem_map.mp hm
      rcases List.mem_cons.mp hg with rfl | hg
      · exact absurd hold.1 (by rw [← hlt]; exact Nat.lt_irrefl _)
      · have hgsize := (h.frame g (by simp [hframes, hg])).1
        exact absurd hgsize (by rw [← hlt]; exact Nat.lt_irrefl _)
    · rw [kindsBelow_addChild h.linked hold.1, if_neg (Ne.symm (Nat.ne_of_lt hold.1)), kindsBelow,
        node_of_size_le (Nat.le_refl _)]
      rfl
  | @closed f outer seen hframes hphase hkind => exact h.withFrames hframes (.inl rfl)
  | @missed f outer message hframes hphase =>
    have hreport := h.note (.ofToken message t)
    unfold missIndent
    split
    · exact hreport.withFrames hframes (.inl rfl)
    · exact hreport.withFrames hframes (.inr ⟨hphase, rfl⟩)
  | reported message => exact h.note _

/-- Taking an event keeps a builder sound. -/
theorem event (h : Sound b) (e : Event) : Sound (b.event e) := by
  cases e with
  | token t => exact h.taken (taken_take b t)
  | problem d => exact h.note d

/-- Taking events keeps a builder sound. -/
theorem foldl_event (h : Sound b) (es : List Event) : Sound (es.foldl Builder.event b) := by
  induction es generalizing b with
  | nil => exact h
  | cons e es ih => exact ih (h.event e)

end Sound

/-- A document is built by a sound builder without problems. -/
theorem sound_of_build {es : List Event} {outcome : Stream.Outcome} {d : Document}
    (h : build es outcome = .ok d) : ∃ b : Builder, Sound b ∧ b.problems = [] ∧ b.document = d := by
  have hsound := Sound.empty.foldl_event es
  have hresult {b : Builder} (hb : Sound b) (hok : b.result = .ok d) :
      ∃ b : Builder, Sound b ∧ b.problems = [] ∧ b.document = d := by
    unfold result at hok
    split at hok
    · next hempty => exact ⟨b, hb, List.isEmpty_iff.mp hempty, Except.ok.inj hok⟩
    · cases hok
  cases outcome with
  | finished ending =>
    have hended := hsound.event (.token ending)
    have hclosed : Sound ((es.foldl Builder.event {}).close ending) :=
      ⟨hended.linked, hended.shape, hended.leaf, fun f hf => (nomatch hf), List.nodup_nil,
        hended.complete⟩
    exact hresult hclosed h
  | failed problem => exact hresult (hsound.note problem) h

end Builder

end PromptOutline
