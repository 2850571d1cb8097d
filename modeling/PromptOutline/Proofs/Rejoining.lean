import PromptOutline.Proofs.Passes

/-!
# Joining lines twice

Joining lines once is enough, also where nodes are shared. A pass leaves no line below a node that
it took, so a second pass finds nothing to join and writes only parents. A node that several others
hold has the last of them as its parent, in the order of the pass, and a second pass in the same
order ends with the same one.
-/

namespace PromptOutline

namespace Document

variable {d e : Document}

/-- The last node of a pass that has `i` among its children. -/
def lastParent? (d : Document) (taken : List NodeId) (i : NodeId) : Option NodeId :=
  (taken.filter fun p => i ∈ (d.node p).children).getLast?

private theorem lastParent?_concat (d : Document) (taken : List NodeId) (p i : NodeId) :
    d.lastParent? (taken ++ [p]) i =
      if i ∈ (d.node p).children then some p else d.lastParent? taken i := by
  by_cases hi : i ∈ (d.node p).children <;> simp [lastParent?, List.filter_append, hi]

private theorem mem_of_lastParent? {taken : List NodeId} {p i : NodeId}
    (h : d.lastParent? taken i = some p) : p ∈ taken ∧ i ∈ (d.node p).children := by
  have hmem := List.mem_filter.mp (List.mem_of_getLast? h)
  exact ⟨hmem.1, by simpa using hmem.2⟩

private theorem lastParent?_congr {taken : List NodeId} {i : NodeId}
    (h : ∀ p ∈ taken, i ∈ (e.node p).children ↔ i ∈ (d.node p).children) :
    e.lastParent? taken i = d.lastParent? taken i := by
  have hfilter : (taken.filter fun p => i ∈ (e.node p).children) =
      taken.filter fun p => i ∈ (d.node p).children :=
    List.filter_congr fun p hp => by simp [h p hp]
  rw [lastParent?, hfilter, lastParent?]

/-- What holds behind a pass over `taken`: no line stands below any of these nodes, and a node that
they hold has the last of them as its parent. -/
structure Rested (taken : List NodeId) (d : Document) : Prop where
  tidy : ∀ p ∈ taken, d.Tidy p
  parent : ∀ i < d.size, ∀ p, d.lastParent? taken i = some p → (d.node i).parent = some p

namespace Rested

variable {taken : List NodeId}

private theorem nil (d : Document) : Rested [] d where
  tidy p hp := by cases hp
  parent i _ p h := by cases h

private theorem joinAt (h : Rested taken d) (p : NodeId) : Rested (taken ++ [p]) (d.joinAt p) := by
  have hat := joinsAt_joinAt d p
  have htidy : ∀ q ∈ taken ++ [p], (d.joinAt p).Tidy q := by
    intro q hq
    by_cases he : q = p
    · rw [he]
      exact hat.tidy
    · intro i hi htext
      rw [hat.children q he] at hi
      have hq : q ∈ taken := (List.mem_append.mp hq).resolve_right (by simpa using he)
      exact hat.form i (h.tidy q hq i hi ((kind_of_place (hat.place i)).symm.trans htext))
  refine ⟨htidy, fun i hi q hlast => ?_⟩
  rw [hat.size] at hi
  rw [lastParent?_concat] at hlast
  rw [hat.parent i hi]
  split at hlast
  · next hkept => rw [if_pos hkept, hlast]
  · next hout =>
    rw [if_neg hout]
    obtain ⟨hq, hmem⟩ := mem_of_lastParent? hlast
    have hne : q ≠ p := by
      rintro rfl
      exact hout hmem
    rw [hat.children q hne] at hmem
    -- a child that is left out is a line, and a node that was taken before has none
    have hstays : ∀ r ∈ taken, i ∈ (d.node r).children → i ∉ (d.node p).children := by
      intro r hr hri hpi
      obtain ⟨htext, hline⟩ := hat.dropped i hpi hout
      exact h.tidy r hr i hri htext hline
    rw [if_neg (hstays q hq hmem)]
    refine h.parent i hi q ?_
    rw [← hlast]
    refine (lastParent?_congr fun r hr => ?_).symm
    by_cases he : r = p
    · subst he
      exact ⟨fun hm => absurd hm hout, fun hm => absurd hm (hstays r hr hm)⟩
    · rw [hat.children r he]

private theorem foldl (h : Rested taken d) (ids : List NodeId) :
    Rested (taken ++ ids) (ids.foldl Document.joinAt d) := by
  induction ids generalizing taken d with
  | nil => simpa using h
  | cons p ids ih =>
    rw [List.append_cons]
    exact ih (h.joinAt p)

end Rested

/-- A pass over nodes below which no line stands changes only parents: a node that they hold gets
the last of them. -/
theorem foldl_joinAt_of_tidy (ids : List NodeId) (h : ∀ p ∈ ids, d.Tidy p) :
    (∀ i, (ids.foldl joinAt d).view i = d.view i) ∧
      ∀ i < d.size, ((ids.foldl joinAt d).node i).parent =
        ((d.lastParent? ids i).map some).getD (d.node i).parent := by
  induction ids using List.reverseRecOn with
  | nil => exact ⟨fun _ => rfl, fun _ _ => rfl⟩
  | append_singleton ids p ih =>
    obtain ⟨hview, hparent⟩ := ih fun q hq => h q (by simp [hq])
    rw [List.foldl_append, List.foldl_cons, List.foldl_nil]
    have hsize := (Settles.foldl ids d).size
    generalize ids.foldl joinAt d = e at hview hparent hsize
    have hchildren (q : NodeId) : (e.node q).children = (d.node q).children :=
      congrArg Prod.snd (hview q)
    have htidy : e.Tidy p := by
      intro i hi htext
      rw [hchildren] at hi
      rw [show (e.node i).toContent = (d.node i).toContent from congrArg Prod.fst (hview i)]
        at htext ⊢
      exact h p (by simp) i hi htext
    have hat := joinsAt_joinAt e p
    have hview' (i : NodeId) := view_joinAt_of_tidy htidy i
    refine ⟨fun i => (hview' i).trans (hview i), fun i hi => ?_⟩
    have hkept : ((e.joinAt p).node p).children = (d.node p).children :=
      (congrArg Prod.snd (hview' p)).trans (hchildren p)
    rw [hat.parent i (hsize ▸ hi), hkept, hchildren, hparent i hi, lastParent?_concat]
    split <;> rfl

private theorem ext_of_view (hsize : e.size = d.size) (hroot : ∀ s, e.root? s = d.root? s)
    (hview : ∀ i, e.view i = d.view i)
    (hparent : ∀ i < d.size, (e.node i).parent = (d.node i).parent) : e = d := by
  have hnodes : e.nodes = d.nodes := by
    refine Array.ext hsize fun i hi hi' => ?_
    have hcontent := congrArg Prod.fst (hview i)
    have hchildren := congrArg Prod.snd (hview i)
    have hp := hparent i hi'
    simp only [view, node, Array.getElem?_eq_getElem hi, Array.getElem?_eq_getElem hi',
      Option.getD_some] at hcontent hchildren hp
    cases hx : e.nodes[i]
    cases hy : d.nodes[i]
    simp_all
  cases d
  cases e
  simp only [mk.injEq]
  exact ⟨hnodes, hroot .role, hroot .context, hroot .action⟩

/-- Joining the lines of a document a second time changes nothing, if no node stands below itself:
every node keeps its value, form, children and parent. Nodes may be shared. -/
theorem joinLines_joinLines (hd : d.Acyclic) : d.joinLines.joinLines = d.joinLines := by
  have hsettles : Settles d d.joinLines := by
    rw [joinLines_eq_foldl hd]
    exact .foldl _ d
  have horder : d.joinLines.roots.flatMap (d.joinLines.order d.joinLines.size) =
      d.roots.flatMap (d.order d.size) := by
    rw [hsettles.roots, hsettles.size]
    exact List.flatMap_congr fun p _ => hsettles.order d.size p
  have hrested : Rested (d.roots.flatMap (d.order d.size)) d.joinLines := by
    rw [joinLines_eq_foldl hd]
    exact (Rested.nil d).foldl _
  rw [joinLines_eq_foldl (hsettles.acyclic hd), horder]
  generalize d.roots.flatMap (d.order d.size) = ids at hrested
  generalize d.joinLines = e at hrested
  obtain ⟨hview, hparent⟩ := foldl_joinAt_of_tidy ids hrested.tidy
  have hagain := Settles.foldl ids e
  refine ext_of_view hagain.size hagain.root hview fun i hi => ?_
  rw [hparent i hi]
  cases hlast : e.lastParent? ids i with
  | none => rfl
  | some p => exact (hrested.parent i hi p hlast).symm

/-- Two sections that share a block and its lines. The block and one of the sections name a line
twice, and the other section fills two places. -/
def sharedSample : Document where
  nodes := #[
    { kind := .role, value := "", line := 1, column := 1, children := [2, 3, 4] },
    { kind := .action, value := "", line := 5, column := 1, children := [2, 4, 3, 4] },
    { kind := .context, value := "", line := 2, column := 5, parent := some 1,
      children := [3, 4, 4] },
    { kind := .text, value := "one", line := 3, column := 9, parent := some 1 },
    { kind := .text, value := "two", line := 4, column := 9, parent := some 1 }]
  role := some 0
  context := some 0
  action := some 1

/-- The shared block joins the second line to the first one twice, while the sections keep it for
themselves; joining again adds nothing. -/
theorem joinLines_joinLines_shared :
    (sharedSample.joinLines.node 3).value = "one\ntwo\ntwo" ∧
      (sharedSample.joinLines.node 0).children = [2, 3, 4] ∧
      sharedSample.joinLines.joinLines = sharedSample.joinLines := by
  have hbehind : ∀ p, ∀ i ∈ (sharedSample.node p).children, p < i := by
    intro p i hi
    by_cases hp : p < 5
    · have hall : ∀ p < 5, ∀ i ∈ (sharedSample.node p).children, p < i := by decide
      exact hall p hp i hi
    · rw [node_of_size_le (Nat.le_of_not_lt hp)] at hi
      cases hi
  exact ⟨by decide +kernel, by decide +kernel, joinLines_joinLines (acyclic_of_behind hbehind)⟩

end Document

end PromptOutline
