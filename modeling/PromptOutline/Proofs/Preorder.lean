import PromptOutline.Proofs.Passes

/-!
# Nodes in the order they are visited

The child links of a document are followed from its sections, each node before the nodes below it.
If the links have no cycle this comes to an end, and the trees of the document are what is visited.
A node that is linked to more than once is visited as often.
-/

namespace PromptOutline

namespace Document

variable {d e : Document}

/-! ### Trees without a bound -/

private theorem treeTo_of_size_le {p : NodeId} (hp : d.size ≤ p) (depth : Nat) :
    d.treeTo depth p = .node (d.node p).toContent [] := by
  cases depth with
  | zero => rfl
  | succ depth =>
    rw [treeTo, node_of_size_le hp]
    rfl

/-- Below as many nodes as the document has, there is nothing but what is none of them. -/
theorem treeTo_succ (hd : d.Acyclic) {depth : Nat} {p : NodeId} {above : List NodeId}
    (habove : d.Above above p) (hdepth : d.size ≤ depth + above.length) :
    d.treeTo (depth + 1) p = d.treeTo depth p := by
  induction depth generalizing p above with
  | zero =>
    have hp : d.size ≤ p := by
      by_contra hp
      exact absurd (habove.length_lt (Nat.lt_of_not_le hp)) (by omega)
    rw [treeTo_of_size_le hp, treeTo_of_size_le hp]
  | succ depth ih =>
    by_cases hp : p < d.size
    · rw [treeTo, treeTo]
      congr 1
      refine List.map_congr_left fun i hi => ?_
      exact ih (habove.child hd hp hi) (by rw [List.length_cons]; omega)
    · have hle := Nat.le_of_not_lt hp
      rw [treeTo_of_size_le hle, treeTo_of_size_le hle]

/-- The tree below a node holds the trees below its children. -/
theorem tree_eq (hd : d.Acyclic) (p : NodeId) :
    d.tree p = .node (d.node p).toContent ((d.node p).children.map d.tree) := by
  exact (treeTo_succ hd (.nil d p) (Nat.le_refl _)).symm

/-- The tree of a node is named as the node is. -/
theorem name?_tree (hd : d.Acyclic) (p : NodeId) : (d.tree p).name? = d.name? p := by
  rw [tree_eq hd, name?]
  cases (d.node p).children with
  | nil => rfl
  | cons first ids =>
    rw [List.map_cons, tree_eq hd first]
    rfl

/-! ### Visits -/

/-- Where a node stands when the links are followed. A node has a spot for each way down to it. -/
structure Spot where
  id : NodeId
  /-- Whether each of the nodes above it is the last of its neighbours, from the top down. -/
  above : List Bool
  isLast : Bool
  deriving DecidableEq

/-- `Preorder d above ids spots`: following the child links of the document from the neighbours
`ids`, each node before the nodes below it, gives the spots. -/
inductive Preorder (d : Document) : List Bool → List NodeId → List Spot → Prop where
  | nothing (above : List Bool) : Preorder d above [] []
  | node {above : List Bool} {id : NodeId} {ids : List NodeId} {below beside : List Spot}
      (hbelow : Preorder d (above ++ [ids.isEmpty]) (d.node id).children below)
      (hbeside : Preorder d above ids beside) :
      Preorder d above (id :: ids) (⟨id, above, ids.isEmpty⟩ :: (below ++ beside))

namespace Preorder

variable {above : List Bool} {ids : List NodeId} {spots spots' : List Spot}

/-- There is only one preorder of some nodes. -/
theorem unique (h : d.Preorder above ids spots) (h' : d.Preorder above ids spots') :
    spots' = spots := by
  induction h generalizing spots' with
  | nothing => cases h'; rfl
  | node _ _ ihbelow ihbeside =>
    cases h' with
    | node hbelow hbeside => rw [ihbelow hbelow, ihbeside hbeside]

/-- Without a cycle every node is visited in finitely many steps. -/
theorem exists_of_acyclic (hd : d.Acyclic) (above : List Bool) (ids : List NodeId) :
    ∃ spots, d.Preorder above ids spots := by
  generalize hts : ids.map d.tree = ts
  induction ts using Tree.forest_induction generalizing above ids with
  | nil =>
    rw [List.map_eq_nil_iff.mp hts]
    exact ⟨[], .nothing above⟩
  | cons c below beside ihbelow ihbeside =>
    cases ids with
    | nil => cases hts
    | cons id ids =>
      rw [List.map_cons, tree_eq hd, List.cons.injEq, Tree.node.injEq] at hts
      obtain ⟨⟨-, hbelow⟩, hbeside⟩ := hts
      obtain ⟨vs, hvs⟩ := ihbelow (above ++ [ids.isEmpty]) _ hbelow
      obtain ⟨us, hus⟩ := ihbeside above ids hbeside
      exact ⟨_, .node hvs hus⟩

end Preorder

/-! ### Shapes -/

/-- `SameShape d e f g ids ids'`: there are as many nodes below `ids` as below `ids'`, in the same
order and at the same depths, and `f` says of each of the ones what `g` says of the other. -/
inductive SameShape {α : Type} (d e : Document) (f g : NodeId → α) :
    List NodeId → List NodeId → Prop where
  | nothing : SameShape d e f g [] []
  | node {id id' : NodeId} {ids ids' : List NodeId} (hnode : f id = g id')
      (hbelow : SameShape d e f g (d.node id).children (e.node id').children)
      (hbeside : SameShape d e f g ids ids') : SameShape d e f g (id :: ids) (id' :: ids')

namespace Preorder

variable {α : Type} {f g : NodeId → α} {above above' : List Bool} {ids ids' : List NodeId}
  {spots spots' : List Spot} {rest rest' : List (Nat × α)}

/-- What is seen of a visit: how deep it is, and something about the node. -/
def seen (f : NodeId → α) (v : Spot) : Nat × α := (v.above.length, f v.id)

/-- Neighbours are visited at their depth, and what follows them is not deeper. -/
theorem depth_le (h : d.Preorder above ids spots)
    (hrest : ∀ m ∈ rest.head?, m.1 < above.length) :
    ∀ m ∈ (spots.map (seen f) ++ rest).head?, m.1 ≤ above.length := by
  cases h with
  | nothing => exact fun m hm => Nat.le_of_lt (hrest m hm)
  | node => exact fun m hm => by cases hm; exact Nat.le_refl _

/-- Depths tell where the spots below a node end, so what is seen of the spots determines the shape.
The induction is on the spots with any others behind them that are less deep. -/
theorem sameShape (h : d.Preorder above ids spots) (h' : e.Preorder above' ids' spots')
    (hdepth : above.length = above'.length) (hrest : ∀ m ∈ rest.head?, m.1 < above.length)
    (hrest' : ∀ m ∈ rest'.head?, m.1 < above.length)
    (hseen : spots.map (seen f) ++ rest = spots'.map (seen g) ++ rest') :
    SameShape d e f g ids ids' ∧ rest = rest' := by
  induction h generalizing above' ids' spots' rest rest' with
  | nothing above =>
    cases h' with
    | nothing => exact ⟨.nothing, hseen⟩
    | @node _ id' ids' below' beside' =>
      have hlt := hrest (above'.length, g id') (by
        rw [List.map_nil, List.nil_append] at hseen
        rw [hseen]
        rfl)
      omega
  | @node above id ids below beside hbelow hbeside ihbelow ihbeside =>
    cases h' with
    | nothing =>
      have hlt := hrest' (above.length, f id) (by
        rw [List.map_nil, List.nil_append] at hseen
        rw [← hseen]
        rfl)
      omega
    | @node _ id' ids' below' beside' hbelow' hbeside' =>
      simp only [List.map_cons, List.map_append, List.cons_append, List.append_assoc,
        List.cons.injEq] at hseen
      obtain ⟨hnode, hseen⟩ := hseen
      have hnext := hbeside.depth_le (f := f) hrest
      have hnext' := hbeside'.depth_le (f := g) (hdepth ▸ hrest')
      obtain ⟨hshape, hseen⟩ := ihbelow hbelow' (by simp [hdepth])
        (fun m hm => by simpa using Nat.lt_succ_of_le (hnext m hm))
        (fun m hm => by simpa [hdepth] using Nat.lt_succ_of_le (hnext' m hm)) hseen
      obtain ⟨hshapes, hseen⟩ := ihbeside hbeside' hdepth hrest hrest' hseen
      exact ⟨.node (congrArg Prod.snd hnode) hshape hshapes, hseen⟩

end Preorder

end Document

end PromptOutline
