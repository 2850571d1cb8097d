import PromptOutline.Proofs.Links

/-!
# Accounts of tokens

Taking a token passes without a report or is reported, and it adds at most one node. The only token
that is both reported and added is a block that repeats a section, and such a block is neither a
section nor a child. An account puts reports and nodes under the numbers of tokens. It stays right
when a token passes, and when a token is reported whose number is new.
-/

namespace PromptOutline

/-! ### Nodes that a document holds -/

namespace Document

variable {d d' : Document}

/-- Whether a node is a section or the child of another node. -/
def Held (d : Document) (i : NodeId) : Prop :=
  (∃ s, d.root? s = some i) ∨ ∃ p, i ∈ (d.node p).children

/-- A node that is held lies in the document. -/
theorem Linked.lt_size_of_held (h : d.Linked) {i : NodeId} (hi : d.Held i) : i < d.size := by
  rcases hi with ⟨s, hs⟩ | ⟨p, hp⟩
  · exact (h.root s i hs).1
  · exact h.lt_size hp

/-- A way from a root ends at a node that is held. -/
theorem held_of_follow? {s : Section} {way : List Nat} {i : NodeId}
    (h : d.follow? s way = some i) : d.Held i := by
  cases way using List.reverseRecOn with
  | nil => exact .inl ⟨s, (follow?_nil d s).symm.trans h⟩
  | append_singleton way n =>
    rw [follow?_concat, Option.bind_eq_some_iff] at h
    obtain ⟨p, -, hi⟩ := h
    exact .inr ⟨p, List.mem_of_getElem? hi⟩

private theorem held_of_add {c : Content} {i : NodeId} (h : (d.add c).1.Held i) : d.Held i := by
  simpa only [Held, root?_add, children_add] using h

private theorem held_of_addChild {p i : NodeId} (hp : p < d.size) {c : Content}
    (h : (d.addChild p c).Held i) : d.Held i ∨ i = d.size := by
  rcases h with ⟨s, hs⟩ | ⟨q, hq⟩
  · exact .inl (.inl ⟨s, (root?_addChild d p c s).symm.trans hs⟩)
  · rw [children_addChild hp] at hq
    split at hq
    · rcases List.mem_append.mp hq with hq | hq
      · exact .inl (.inr ⟨q, hq⟩)
      · exact .inr (List.mem_singleton.mp hq)
    · exact .inl (.inr ⟨q, hq⟩)

private theorem held_of_setRoot {s : Section} {kind : TokenKind} (hs : s.kind = kind)
    (hfree : d.root? s = none) {id i : NodeId} (h : (d.setRoot kind id).1.Held i) :
    d.Held i ∨ i = id := by
  rcases h with ⟨r, hr⟩ | ⟨p, hp⟩
  · rw [root?_setRoot hs hfree] at hr
    split at hr
    · exact .inr (Option.some.inj hr).symm
    · exact .inl (.inl ⟨r, hr⟩)
  · rw [node_setRoot] at hp
    exact .inl (.inr ⟨p, hp⟩)

/-- `Extends d t d'`: `d'` has the contents of `d` and at most one more, that of the token `t`. -/
structure Extends (d : Document) (t : Token) (d' : Document) : Prop where
  size : d.size ≤ d'.size ∧ d'.size ≤ d.size + 1
  content : ∀ i < d'.size,
    (d'.node i).toContent = if i < d.size then (d.node i).toContent else .ofToken t

namespace Extends

private theorem refl (d : Document) (t : Token) : Extends d t d where
  size := ⟨Nat.le_refl _, Nat.le_succ _⟩
  content i hi := by rw [if_pos hi]

private theorem of_content {t : Token} (hsize : d'.size = d.size + 1)
    (h : ∀ i, (d'.node i).toContent = if i = d.size then .ofToken t else (d.node i).toContent) :
    Extends d t d' where
  size := ⟨hsize ▸ Nat.le_succ _, Nat.le_of_eq hsize⟩
  content i hi := by
    rw [h]
    by_cases he : i = d.size
    · rw [if_pos he, if_neg (he ▸ Nat.lt_irrefl i)]
    · rw [hsize] at hi
      have hlt : i < d.size := Nat.lt_of_le_of_ne (Nat.le_of_lt_succ hi) he
      rw [if_neg he, if_pos hlt]

end Extends

end Document

/-! ### What becomes of a token -/

namespace Builder

open Document

variable {b b' : Builder} {t : Token}

/-- `Handled t b b'`: on the token `t` the builder goes from `b` to `b'`. It passes without a
report, and a node that it adds may be held; or it is reported, and no other node is held than
before. -/
inductive Handled (t : Token) (b b' : Builder) : Prop where
  | passed (hkind : Outline.isBadMark t.kind = false)
      (hextends : Extends b.document t b'.document) (hproblems : b'.problems = b.problems)
      (hheld : ∀ i, b'.document.Held i → b.document.Held i ∨ i = b.document.size)
  | reported (message : String) (hextends : Extends b.document t b'.document)
      (hproblems : b'.problems = b.problems ++ [.ofToken message t])
      (hheld : ∀ i, b'.document.Held i → b.document.Held i)

/-- A token that leaves the document and the problems alone is handled, unless it is a bad mark. -/
theorem Handled.unchanged (hkind : Outline.isBadMark t.kind = false)
    (hdocument : b'.document = b.document) (hproblems : b'.problems = b.problems) :
    Handled t b b' := by
  refine .passed hkind ?_ hproblems fun i hi => .inl (hdocument ▸ hi)
  rw [hdocument]
  exact .refl _ t

/-- A token that is reported and leaves the document alone is handled. -/
theorem Handled.noted (message : String) (hdocument : b'.document = b.document)
    (hproblems : b'.problems = b.problems ++ [.ofToken message t]) : Handled t b b' := by
  refine .reported message ?_ hproblems fun i hi => hdocument ▸ hi
  rw [hdocument]
  exact .refl _ t

private theorem Handled.added {f : Frame} (hf : f.block < b.document.size)
    (hkind : Outline.isBadMark t.kind = false)
    (hdocument : b'.document = b.document.addChild f.block (.ofToken t))
    (hproblems : b'.problems = b.problems) : Handled t b b' := by
  refine .passed hkind ?_ hproblems fun i hi => held_of_addChild hf (hdocument ▸ hi)
  rw [hdocument]
  exact .of_content (size_addChild ..) fun i => content_addChild hf _ i

/-- Every token passes or is reported when it is taken. -/
theorem handled_take (h : Sound b) (t : Token) : Handled t b (b.take t) := by
  have hblock {f : Frame} {outer : List Frame} (hframes : b.frames = f :: outer) :
      f.block < b.document.size := (h.frame f (by simp [hframes])).1
  have hplanted : Extends b.document t
      ((b.document.add (.ofToken t)).1.setRoot t.kind b.document.size).1 :=
    .of_content (by rw [size_setRoot, size_add]) fun i => by
      rw [node_setRoot]
      exact content_add ..
  have hroot (s : Section) : (b.document.add (.ofToken t)).1.root? s = b.document.root? s :=
    root?_add ..
  have htaken := taken_take b t
  generalize b.take t = b' at htaken
  cases htaken with
  | @opened s hframes hs hfree =>
    refine .passed (by rw [← hs]; cases s <;> rfl) hplanted rfl fun i hi => ?_
    exact (held_of_setRoot hs ((hroot s).trans hfree) hi).imp_left held_of_add
  | @repeated s id message hframes hs hfilled =>
    refine .reported message hplanted rfl fun i hi => held_of_add (c := .ofToken t) ?_
    rw [← setRoot_of_root? hs ((hroot s).trans hfilled) b.document.size]
    exact hi
  | ended hframes hkind => exact .unchanged (by rw [hkind]; rfl) rfl rfl
  | named hframes hphase hkind => exact .added (hblock hframes) (by rw [hkind]; rfl) rfl rfl
  | begun hframes hphase hkind => exact .unchanged (by rw [hkind]; rfl) rfl rfl
  | text hframes hphase hkind => exact .added (hblock hframes) (by rw [hkind]; rfl) rfl rfl
  | nested hframes hphase hkind => exact .added (hblock hframes) (by rw [hkind]; rfl) rfl rfl
  | closed hframes hphase hkind =>
    have hk : t.kind = .outdent ∨ t.kind = .endOfFile := by simpa [closes] using hkind
    exact .unchanged (by rcases hk with hk | hk <;> rw [hk] <;> rfl) rfl rfl
  | @missed f outer message hframes hphase =>
    refine .noted message ?_ ?_
    · unfold missIndent
      split <;> rfl
    · unfold missIndent
      split <;> rfl
  | reported message => exact .noted message rfl rfl

end Builder

/-! ### Accounts -/

/-- The reports and the nodes of a document under the numbers of tokens: numbers of reports go up
and a report stands at its token; every node has the number of a token with its content; and the
number of a held node is not that of a report. -/
structure Account (taken : List Token) (reports : List (Nat × Diagnostic)) (origins : List Nat)
    (d : Document) : Prop where
  ordered : (reports.map Prod.fst).Pairwise (· < ·)
  placed : ∀ r ∈ reports, ∃ t, taken[r.1]? = some t ∧ r.2 = .ofToken r.2.message t
  nodes : origins.length = d.size
  added : ∀ i n, origins[i]? = some n → ∃ t, taken[n]? = some t ∧ (d.node i).toContent = .ofToken t
  held : ∀ i n, d.Held i → origins[i]? = some n → ∀ p, (n, p) ∉ reports

namespace Account

open Document

variable {taken : List Token} {reports : List (Nat × Diagnostic)} {origins : List Nat}
  {d d' : Document} {t : Token} {n : Nat}

/-- With nothing taken, the empty document accounts for no report. -/
theorem empty : Account [] [] [] {} where
  ordered := .nil
  placed r hr := by cases hr
  nodes := rfl
  added i n h := by cases h
  held i n _ h := by cases h

private theorem getElem?_append {k : Nat} (h : taken[k]? = some t) (more : List Token) :
    (taken ++ more)[k]? = some t := by
  rw [List.getElem?_append_left (List.getElem?_eq_some_iff.mp h).1, h]

/-- Taking more tokens changes no number. -/
theorem more (h : Account taken reports origins d) (ts : List Token) :
    Account (taken ++ ts) reports origins d where
  ordered := h.ordered
  placed r hr := by
    obtain ⟨t, ht, hr⟩ := h.placed r hr
    exact ⟨t, getElem?_append ht ts, hr⟩
  nodes := h.nodes
  added i n hn := by
    obtain ⟨t, ht, hi⟩ := h.added i n hn
    exact ⟨t, getElem?_append ht ts, hi⟩
  held := h.held

/-- A report is numbered by a token that was taken. -/
theorem lt_of_report (h : Account taken reports origins d) {r : Nat × Diagnostic}
    (hr : r ∈ reports) : r.1 < taken.length := by
  obtain ⟨t, ht, -⟩ := h.placed r hr
  exact (List.getElem?_eq_some_iff.mp ht).1

/-- No two reports have the same number. -/
theorem eq_of_number (h : Account taken reports origins d) {r r' : Nat × Diagnostic}
    (hr : r ∈ reports) (hr' : r' ∈ reports) (hn : r.1 = r'.1) : r = r' := by
  have hnodup : (reports.map Prod.fst).Nodup := h.ordered.imp Nat.ne_of_lt
  exact List.inj_on_of_nodup_map hnodup hr hr' hn

/-- A node comes from a token that was taken. -/
theorem lt_of_origin (h : Account taken reports origins d) (hn : n ∈ origins) :
    n < taken.length := by
  obtain ⟨i, hi⟩ := List.mem_iff_getElem?.mp hn
  obtain ⟨t, ht, -⟩ := h.added i n hi
  exact (List.getElem?_eq_some_iff.mp ht).1

/-- The numbers of the nodes after a token `t` with the number `n`. -/
theorem origins_cases {i k : Nat} (h : Account taken reports origins d)
    (hextends : Extends d t d')
    (hk : (origins ++ List.replicate (d'.size - d.size) n)[i]? = some k) :
    i < d'.size ∧ (i < d.size ∧ origins[i]? = some k ∨ d.size ≤ i ∧ k = n) := by
  have hsize := hextends.size
  by_cases hi : i < d.size
  · rw [List.getElem?_append_left (h.nodes ▸ hi)] at hk
    exact ⟨Nat.lt_of_lt_of_le hi hsize.1, .inl ⟨hi, hk⟩⟩
  · rw [List.getElem?_append_right (h.nodes ▸ Nat.le_of_not_lt hi), List.getElem?_replicate] at hk
    split at hk
    · next hlt =>
      rw [h.nodes] at hlt
      refine ⟨?_, .inr ⟨Nat.le_of_not_lt hi, (Option.some.inj hk).symm⟩⟩
      omega
    · cases hk

private theorem added_of_extends (h : Account taken reports origins d) (ht : taken[n]? = some t)
    (hextends : Extends d t d') (i k : Nat)
    (hk : (origins ++ List.replicate (d'.size - d.size) n)[i]? = some k) :
    ∃ u, taken[k]? = some u ∧ (d'.node i).toContent = .ofToken u := by
  obtain ⟨hi, ⟨hlt, hold⟩ | ⟨hle, rfl⟩⟩ := origins_cases h hextends hk
  · obtain ⟨u, hu, hcontent⟩ := h.added i k hold
    exact ⟨u, hu, by rw [hextends.content i hi, if_pos hlt, hcontent]⟩
  · exact ⟨t, ht, by rw [hextends.content i hi, if_neg (Nat.not_lt.mpr hle)]⟩

private theorem length_of_extends (h : Account taken reports origins d)
    (hextends : Extends d t d') :
    (origins ++ List.replicate (d'.size - d.size) n).length = d'.size := by
  rw [List.length_append, List.length_replicate, h.nodes]
  exact Nat.add_sub_cancel' hextends.size.1

/-- A token without a report may add a node that is held. -/
theorem passed (h : Account taken reports origins d) (ht : taken[n]? = some t)
    (hfresh : ∀ p, (n, p) ∉ reports) (hextends : Extends d t d')
    (hheld : ∀ i, d'.Held i → d.Held i ∨ i = d.size) :
    Account taken reports (origins ++ List.replicate (d'.size - d.size) n) d' where
  ordered := h.ordered
  placed := h.placed
  nodes := h.length_of_extends hextends
  added := h.added_of_extends ht hextends
  held i k hi hk := by
    obtain ⟨-, ⟨hlt, hold⟩ | ⟨-, rfl⟩⟩ := origins_cases h hextends hk
    · rcases hheld i hi with hi | hi
      · exact h.held i k hi hold
      · exact absurd hlt (hi ▸ Nat.lt_irrefl _)
    · exact hfresh

/-- A report at a token whose number is new may come with a node that is not held. -/
theorem reported (h : Account taken reports origins d) (hlinked : d.Linked)
    (ht : taken[n]? = some t) (hnew : ∀ r ∈ reports, r.1 < n) (hfresh : n ∉ origins)
    (hextends : Extends d t d') (hheld : ∀ i, d'.Held i → d.Held i) (message : String) :
    Account taken (reports ++ [(n, .ofToken message t)])
      (origins ++ List.replicate (d'.size - d.size) n) d' where
  ordered := by
    rw [List.map_append, List.pairwise_append]
    refine ⟨h.ordered, List.pairwise_singleton _ _, ?_⟩
    intro a ha b hb
    obtain ⟨r, hr, rfl⟩ := List.mem_map.mp ha
    obtain rfl : b = n := List.mem_singleton.mp hb
    exact hnew r hr
  placed r hr := by
    rcases List.mem_append.mp hr with hr | hr
    · exact h.placed r hr
    · rw [List.mem_singleton.mp hr]
      exact ⟨t, ht, rfl⟩
  nodes := h.length_of_extends hextends
  added := h.added_of_extends ht hextends
  held i k hi hk p hp := by
    have hlt := hlinked.lt_size_of_held (hheld i hi)
    obtain ⟨-, ⟨-, hold⟩ | ⟨hle, -⟩⟩ := origins_cases h hextends hk
    · rcases List.mem_append.mp hp with hp | hp
      · exact h.held i k (hheld i hi) hold p hp
      · obtain rfl : k = n := congrArg Prod.fst (List.mem_singleton.mp hp)
        exact hfresh (List.mem_of_getElem? hold)
    · exact absurd hlt (Nat.not_lt.mpr hle)

end Account

end PromptOutline
