import PromptOutline.Proofs.BlankLines
import PromptOutline.Proofs.Inert
import PromptOutline.Proofs.JoinedLinks
import PromptOutline.Proofs.JoinedRuns
import PromptOutline.Proofs.Moves

/-!
# Lines that stay apart

The empty text of a blank line is given between the texts before and behind it, whatever is included
or embedded in between. In the document it is a child of the block that holds the other two, if one
block does, because a block has its texts in one go. So a run of lines with both of them has the
empty line between them, and no paragraph goes over it.
-/

namespace PromptOutline

/-! ### What stands behind in a file -/

namespace Stream

variable {w : Workspace} {width : UInt64}

private theorem Reaches.token {s : Stream} {t : Token} {rest : List Token}
    {outer : List (List Token)}
    (ho : s.opened = (t :: rest) :: outer) (ht : isInner t.kind = false) :
    Reaches w width s [.token t] { s with opened := rest :: outer } :=
  .step (Move.given ho ht).step_eq (.refl _)

/-- Whether a run comes to its end. -/
def Completes (w : Workspace) (width : UInt64) (s : Stream) : Prop :=
  ∀ d, (s.run w width).2 ≠ .failed d

private theorem Completes.of_reaches {s s' : Stream} {es : List Event} (h : s.Completes w width)
    (hreach : Reaches w width s es s') : s'.Completes w width := by
  intro d hd
  apply h d
  rw [hreach.run]
  exact hd

/-- A run that comes to its end gets to whatever stands behind in an open file, if no name starts
it. -/
theorem exists_reaches (inner : List (List Token)) (ts : List Token) {us : List Token}
    {outer : List (List Token)} {s : Stream} (h : s.Completes w width)
    (ho : s.opened = inner ++ (ts ++ us) :: outer)
    (hts : ∀ t ∈ ts, t.kind ≠ .endOfFile) (hus : Nameless us) :
    ∃ es s', Reaches w width s es s' ∧ s'.opened = us :: outer := by
  induction s using step_induction w width generalizing inner ts with
  | next s ih =>
    -- a step that leads on with the rest of the file, under files it may have opened
    have hnext {es : List Event} {s' : Stream} (inner : List (List Token)) {rest : List Token}
        (hstep : s.step w width = .next es s') (hrest : ∀ t ∈ rest, t.kind ≠ .endOfFile)
        (ho' : s'.opened = inner ++ (rest ++ us) :: outer) :
        ∃ es s', Reaches w width s es s' ∧ s'.opened = us :: outer := by
      have hone : Reaches w width s es s' := by
        simpa using Reaches.step hstep (.refl s')
      obtain ⟨fs, s'', hreach, ho''⟩ := ih es s' hstep _ _ (h.of_reaches hone) ho' hrest
      exact ⟨es ++ fs, s'', .step hstep hreach, ho''⟩
    have hfailed {d : Diagnostic} : s.step w width ≠ .failed d := fun hstep =>
      h d (by rw [run_of_failed hstep])
    obtain ⟨sources, opened, ending⟩ := s
    dsimp only at ho
    subst ho
    cases inner with
    | nil =>
      cases ts with
      | nil => exact ⟨[], _, .refl _, rfl⟩
      | cons t ts =>
        rcases step_cons w width sources ts (hts t List.mem_cons_self) with
          ⟨d, hfail⟩ | ⟨es, r, files, rest, hrest, -, hstep⟩
        · exact absurd (hfail us outer ending hus) hfailed
        · exact hnext files (hstep us outer ending hus)
            (fun u hu => hts u (List.mem_cons_of_mem t (hrest hu))) rfl
    | cons file inner =>
      rcases step_cases w width sources file with ⟨d, hfail⟩ | ⟨es, r, files, last, -, hstep⟩
      · exact absurd (hfail _ ending) hfailed
      · exact hnext (files ++ inner) (hstep _ ending) hts (List.append_assoc ..).symm

end Stream

/-! ### The texts of a block -/

namespace Document

variable {d : Document}

/-- What stands between a block and one of its texts is a child of the block, too. -/
def Packed (d : Document) : Prop :=
  ∀ p, ∀ i ∈ (d.node p).children, (d.node i).kind = .text →
    ∀ k, p < k → k < i → k ∈ (d.node p).children

private theorem Packed.add (h : d.Packed) (hd : d.Linked) (c : Content) : (d.add c).1.Packed := by
  intro p i hi htext k hpk hki
  rw [children_add] at hi ⊢
  rw [content_add, if_neg (Nat.ne_of_lt (hd.lt_size hi))] at htext
  exact h p i hi htext k hpk hki

/-- A text may be added to a block that holds everything behind it. -/
theorem Packed.addChild (h : d.Packed) (hd : d.Linked) {parent : NodeId} (hp : parent < d.size)
    {c : Content} (hc : c.kind = .text →
      ∀ k, parent < k → k < d.size → k ∈ (d.node parent).children) :
    (d.addChild parent c).Packed := by
  intro p i hi htext k hpk hki
  have hold {q : NodeId} (hq : q ∈ (d.node p).children) :
      q ∈ ((d.addChild parent c).node p).children := by
    rw [children_addChild hp]
    split
    · exact List.mem_append_left _ hq
    · exact hq
  by_cases hnew : i = d.size
  · subst hnew
    obtain rfl : p = parent := by
      rw [children_addChild hp] at hi
      by_contra hne
      rw [if_neg hne] at hi
      exact Nat.lt_irrefl _ (hd.lt_size hi)
    rw [content_addChild hp, if_pos rfl] at htext
    exact hold (hc htext k hpk hki)
  · have hi' : i ∈ (d.node p).children := by
      rw [children_addChild hp] at hi
      split at hi
      · exact (List.mem_append.mp hi).resolve_right (by simpa using hnew)
      · exact hi
    rw [content_addChild hp, if_neg hnew] at htext
    exact hold (h p i hi' htext k hpk hki)

end Document

namespace Builder

open Document

/-- What holds of a builder besides: its blocks have their texts in one go. The innermost open block
holds everything behind it as long as no block was nested in it, and in the others one was. -/
structure Gathers (b : Builder) : Prop where
  packed : b.document.Packed
  innermost : ∀ f, b.frames.head? = some f → f.phase ≠ .body true →
    ∀ k, f.block < k → k < b.document.size → k ∈ (b.document.node f.block).children
  others : ∀ f ∈ b.frames.tail, f.phase = .body true

namespace Gathers

variable {b : Builder}

private theorem empty : Gathers {} where
  packed p i hi := by
    rw [node_of_size_le (Nat.zero_le p)] at hi
    cases hi
  innermost f hf := by cases hf
  others f hf := by cases hf

private theorem note (h : Gathers b) (d : Diagnostic) : Gathers (b.note d) :=
  ⟨h.packed, h.innermost, h.others⟩

/-- The innermost block is closed, or it goes on in another phase. -/
theorem withFrames {f : Frame} {outer frames : List Frame} (h : Gathers b)
    (hframes : b.frames = f :: outer)
    (hnew : frames = outer ∨ f.phase ≠ .body true ∧
      ∃ phase, frames = { f with phase } :: outer) : Gathers { b with frames } := by
  have hothers : ∀ g ∈ outer, g.phase = .body true := by
    have hold := h.others
    rwa [hframes] at hold
  rcases hnew with rfl | ⟨hphase, phase, rfl⟩
  · refine ⟨h.packed, fun g hg hne => ?_, fun g hg => hothers g (List.mem_of_mem_tail hg)⟩
    exact absurd (hothers g (List.mem_of_head? hg)) hne
  · refine ⟨h.packed, fun g hg _ => ?_, hothers⟩
    obtain rfl := Option.some.inj hg
    exact h.innermost f (by rw [hframes]; rfl) hphase

/-- A child of the innermost block, which no block is nested in. -/
theorem added {f : Frame} {outer : List Frame} (h : Gathers b) (hsound : Sound b)
    (hframes : b.frames = f :: outer) (hphase : f.phase ≠ .body true) (t : Token) (phase : Phase) :
    Gathers { b with
      document := b.document.addChild f.block (.ofToken t),
      frames := { f with phase } :: outer } := by
  have hlt := (hsound.frame f (by simp [hframes])).1
  have hall := h.innermost f (by rw [hframes]; rfl) hphase
  refine ⟨h.packed.addChild hsound.linked hlt fun _ => hall, fun g hg _ k hk hsize => ?_, ?_⟩
  · obtain rfl := Option.some.inj hg
    rw [size_addChild] at hsize
    rw [children_addChild hlt, if_pos rfl]
    rcases Nat.lt_or_eq_of_le (Nat.le_of_lt_succ hsize) with hold | rfl
    · exact List.mem_append_left _ (hall k hk hold)
    · exact List.mem_append_right _ (List.mem_singleton_self _)
  · have hold := h.others
    rwa [hframes] at hold

/-- A new block is the innermost one, and nothing stands behind it. -/
theorem opened {d : Document} {k : TokenKind} {outer : List Frame} {problems : List Diagnostic}
    (h : d.Packed) (hsize : d.size = b.document.size + 1)
    (houter : ∀ f ∈ outer, f.phase = .body true) :
    Gathers { document := d, problems, frames := ⟨b.document.size, k, .keyword⟩ :: outer } where
  packed := h
  innermost f hf _ i hi hlt := by
    obtain rfl := Option.some.inj hf
    rw [hsize] at hlt
    exact absurd hi (Nat.not_lt.mpr (Nat.le_of_lt_succ hlt))
  others := houter

private theorem taken {t : Token} {b' : Builder} (h : Gathers b) (hsound : Sound b)
    (ht : Taken b t b') :
    Gathers b' := by
  have hplanted : ((b.document.add (.ofToken t)).1.setRoot t.kind b.document.size).1.Packed := by
    intro p
    rw [node_setRoot]
    exact h.packed.add hsound.linked _ p
  have hsize : ((b.document.add (.ofToken t)).1.setRoot t.kind b.document.size).1.size =
      b.document.size + 1 := by
    rw [size_setRoot, size_add]
  have hstart {f : Frame}
      (hphase : f.phase = .keyword ∨ f.phase = .name) : f.phase ≠ .body true := by
    rcases hphase with he | he <;> simp [he]
  cases ht with
  | opened => exact opened hplanted hsize (by simp)
  | repeated => exact opened hplanted hsize (by simp)
  | ended => exact h
  | named hframes hphase => exact h.added hsound hframes (hstart (.inl hphase)) t .name
  | begun hframes hphase =>
    exact h.withFrames hframes (.inr ⟨hstart hphase, _, rfl⟩)
  | @text f outer hframes hphase hkind =>
    have hadded := h.added hsound hframes (by simp [hphase]) t (.body false)
    have hframe : ({ f with phase := .body false } : Frame) :: outer = b.frames := by
      rw [hframes, ← hphase]
    rw [hframe] at hadded
    exact hadded
  | @nested f outer seen hframes hphase hkind houter =>
    have hlt := (hsound.frame f (by simp [hframes])).1
    have hothers := h.others
    rw [hframes] at hothers
    refine opened (h.packed.addChild hsound.linked hlt fun htext => ?_) (size_addChild ..)
      fun g hg => ?_
    · rw [show (Content.ofToken t).kind = t.kind from rfl, hkind] at htext
      cases htext
    · rcases List.mem_cons.mp hg with rfl | hg
      · rfl
      · exact hothers g hg
  | closed hframes => exact h.withFrames hframes (.inl rfl)
  | @missed f outer message hframes hphase =>
    have hreport := h.note (.ofToken message t)
    unfold missIndent
    split
    · exact hreport.withFrames hframes (.inl rfl)
    · exact hreport.withFrames hframes (.inr ⟨hstart hphase, _, rfl⟩)
  | reported message => exact h.note _

private theorem foldl_event (h : Gathers b) (hsound : Sound b) (es : List Event) :
    Gathers (es.foldl Builder.event b) := by
  induction es generalizing b with
  | nil => exact h
  | cons e es ih =>
    refine ih ?_ (hsound.event e)
    cases e with
    | token t => exact h.taken hsound (taken_take b t)
    | problem d => exact h.note d

end Gathers

/-- The blocks of a document that was built have their texts in one go. -/
theorem packed_of_build {es : List Event} {outcome : Stream.Outcome} {d : Document}
    (h : build es outcome = .ok d) : d.Packed := by
  have hsound := Sound.empty.foldl_event es
  have hgathers := Gathers.empty.foldl_event .empty es
  have hresult {b : Builder} (hb : b.document.Packed) (hok : b.result = .ok d) : d.Packed := by
    unfold result at hok
    split at hok
    · exact Except.ok.inj hok ▸ hb
    · cases hok
  cases outcome with
  | finished ending => exact hresult (hgathers.taken hsound (taken_take _ ending)).packed h
  | failed problem => exact hresult (hgathers.note problem).packed h

end Builder

/-! ### An empty line in a run -/

namespace Document

variable {d : Document}

/-- The lines of a run that go into a part. -/
def Segment.nodes (run : List NodeId) (p : Segment) : List NodeId := (run.drop p.first).take p.count

private theorem Segment.mem_nodes {run : List NodeId} {p : Segment} {i : NodeId} :
    i ∈ p.nodes run ↔ ∃ n ∈ p.places, run[n]? = some i := by
  rw [List.mem_iff_getElem?]
  simp only [nodes, List.getElem?_take, List.getElem?_drop]
  constructor
  · rintro ⟨n, hn⟩
    split at hn
    · next hlt =>
      exact ⟨p.first + n, mem_places.mpr ⟨Nat.le_add_right _ _, Nat.add_lt_add_left hlt _⟩, hn⟩
    · cases hn
  · rintro ⟨n, hplace, hn⟩
    obtain ⟨hle, hlt⟩ := mem_places.mp hplace
    refine ⟨n - p.first, ?_⟩
    rw [if_pos (Nat.sub_lt_left_of_lt_add hle hlt), Nat.add_sub_cancel' hle, hn]

/-- Two lines that no paragraph holds both of: where they are of one run, joining puts them into no
paragraph together. -/
def Apart (d e : Document) (i k : NodeId) : Prop :=
  ∀ b before run after, d.IsRun b before run after → i ∈ run → k ∈ run →
    ∃ parts, JoinsRun d e b before run after parts ∧
      ∀ p ∈ parts, p.form = .paragraph → i ∈ p.nodes run → k ∉ p.nodes run

private theorem Linked.treeShaped (h : d.Linked) : d.TreeShaped where
  closed _ _ hi := h.lt_size hi
  acyclic := acyclic_of_behind h.behind
  nodup p := (h.ordered p).imp Nat.ne_of_lt
  unique p q i hp hq :=
    Option.some.inj (((h.parent_iff p i).mpr hp).symm.trans ((h.parent_iff q i).mpr hq))

/-- Blocks lead to whatever has children. -/
theorem Descends.encloses {p q : NodeId} (h : d.Descends p q) (hleaves : d.TextLeaves)
    (hq : (d.node q).children ≠ []) : d.Encloses p q := by
  induction h with
  | refl => exact .refl
  | @tail q i _ hi ih =>
    have htext : (d.node i).isText = false := by
      by_contra htext
      exact hq (hleaves i (by simpa [Content.isText] using htext))
    exact (ih (List.ne_nil_of_mem hi)).tail (List.mem_filter.mpr ⟨hi, by simp [htext]⟩)

/-- Joining all lines of a document joins every run. -/
theorem joinsRun_joinLines (h : d.Linked) (hcomplete : d.Complete) (hleaves : d.TextLeaves)
    {b : NodeId} {before run after : List NodeId} (hrun : d.IsRun b before run after)
    (hne : run ≠ []) : ∃ parts, JoinsRun d d.joinLines b before run after parts := by
  have htree := h.treeShaped
  have hchildren : (d.node b).children ≠ [] := by
    rw [hrun.children]
    simp [hne]
  have hlt : b < d.size := by
    by_contra hle
    rw [node_of_size_le (Nat.le_of_not_lt hle)] at hchildren
    exact hchildren rfl
  obtain ⟨⟨s, way⟩, hway, -⟩ := h.existsUnique_follow? hcomplete hlt
  obtain ⟨r, hr, hdown⟩ := descends_of_follow? hway
  have hmem : b ∈ d.roots.flatMap (d.order d.size) :=
    List.mem_flatMap.mpr ⟨r, hr, mem_order htree.acyclic htree.closed (lt_size_of_mem_roots h hr)
      (hdown.encloses hleaves hchildren)⟩
  rw [joinLines_eq_foldl htree.acyclic]
  exact (joinsRun_foldl htree hmem).1 before run after hrun

/-- Places in ascending lists are ordered as what stands there. -/
theorem lt_of_pairwise {ids : List NodeId} (h : ids.Pairwise (· < ·)) {m n : Nat} {i k : NodeId}
    (hm : ids[m]? = some i) (hn : ids[n]? = some k) (hik : i < k) : m < n := by
  obtain ⟨hltm, rfl⟩ := List.getElem?_eq_some_iff.mp hm
  obtain ⟨hltn, rfl⟩ := List.getElem?_eq_some_iff.mp hn
  by_contra hle
  rcases Nat.lt_or_eq_of_le (Nat.le_of_not_lt hle) with hlt | rfl
  · exact Nat.lt_asymm hik (List.pairwise_iff_getElem.mp h n m hltn hltm hlt)
  · exact Nat.lt_irrefl _ hik

/-- An empty line keeps lines apart that it stands between. -/
theorem apart_of_empty (h : d.Linked) (hcomplete : d.Complete) (hleaves : d.TextLeaves)
    (hpacked : d.Packed) {i e k : NodeId} (hie : i < e) (hek : e < k)
    (hempty : (d.node e).value = "") : d.Apart d.joinLines i k := by
  intro b before run after hrun hi hk
  obtain ⟨parts, hjoins⟩ :=
    joinsRun_joinLines h hcomplete hleaves hrun (List.ne_nil_of_mem hi)
  refine ⟨parts, hjoins, fun p hp hform hip hkp => ?_⟩
  have hordered := h.ordered b
  rw [hrun.children] at hordered
  obtain ⟨hfront, -, hafter⟩ := List.pairwise_append.mp hordered
  obtain ⟨-, hsorted, hbefore⟩ := List.pairwise_append.mp hfront
  -- the empty line is a child between the two, so it is in the run
  have he : e ∈ run := by
    have hmem {j : NodeId} (hj : j ∈ run) : j ∈ (d.node b).children := by simp [hrun.children, hj]
    have hchild := hpacked b k (hmem hk) (hrun.lines k hk).1 e
      (Nat.lt_trans (h.behind b i (hmem hi)) hie) hek
    rw [hrun.children] at hchild
    rcases List.mem_append.mp hchild with hchild | hchild
    · exact (List.mem_append.mp hchild).resolve_left fun hb =>
        Nat.lt_asymm hie (hbefore e hb i hi)
    · exact absurd (hafter k (List.mem_append_right _ hk) e hchild) (Nat.lt_asymm hek)
  obtain ⟨l, hl, hli⟩ := Segment.mem_nodes.mp hip
  obtain ⟨n, hn, hnk⟩ := Segment.mem_nodes.mp hkp
  obtain ⟨m, hme⟩ := List.mem_iff_getElem?.mp he
  have hm : m ∈ p.places := by
    rw [Segment.mem_places] at hl hn ⊢
    have hlm := lt_of_pairwise hsorted hli hme hie
    have hmn := lt_of_pairwise hsorted hme hnk hek
    omega
  have hfilled := (hjoins.segmentation.paragraph p hp hform m hm).filled
  simp [emptyAt, List.getD_eq_getElem?_getD, hme, hempty] at hfilled

end Document

/-! ### Blank lines in documents -/

/-- The tokens among events that nodes are made from. -/
def Event.nodes (es : List Event) : List Token := (Event.tokens es).filter Grammar.isNode

private theorem Event.nodes_append (es fs : List Event) :
    nodes (es ++ fs) = nodes es ++ nodes fs := by
  rw [nodes, tokens_append, List.filter_append, nodes, nodes]

private theorem Event.nodes_text {t : Token} (ht : t.kind = .text) (es : List Event) :
    nodes (.token t :: es) = t :: nodes es :=
  List.filter_cons_of_pos (by simp [Grammar.isNode, TokenKind.hasLine, ht])

namespace Outline.BlankBetween

variable {w : Workspace} {width : UInt64} {fileName source : String}

/-- The outline does not end between the two lines. -/
theorem kind_of_mem_between (g : BlankBetween width fileName source) :
    ∀ t ∈ g.between, t.kind ≠ .endOfFile := by
  intro t ht
  have hcontent := congrArg List.dropLast ((tokens_eq_content ..).symm.trans g.tokens_eq)
  rw [List.dropLast_concat, List.dropLast_append_of_ne_nil (by simp), ← List.cons_append,
    List.dropLast_append_of_ne_nil (by simp)] at hcontent
  refine kind_of_mem_content t (?_ : t ∈ content width fileName source)
  rw [hcontent]
  simp [ht]

/-- A run that comes to its end gets from the first line over any text between the two to the
last. -/
theorem exists_reaches (g : BlankBetween width fileName source) {here : Stream} {e : Token}
    {outer : List (List Token)} (h : here.Completes w width) (he : e ∈ g.between)
    (hkind : e.kind = .text)
    (ho : here.opened = (g.first :: (g.between ++ g.last :: g.behind)) :: outer) :
    ∃ es fs there, here.Reaches w width (.token g.first :: (es ++ .token e :: fs)) there ∧
      there.opened = (g.last :: g.behind) :: outer := by
  have hinner {t : Token} (ht : t.kind = .text) : Stream.isInner t.kind = false := by rw [ht]; rfl
  have hnameless {t : Token} (ht : t.kind = .text) (ts : List Token) :
      Stream.Nameless (t :: ts) := by
    simp [Stream.Nameless, ht]
  obtain ⟨xs, ys, hsplit⟩ := List.append_of_mem he
  have hends := g.kind_of_mem_between
  rw [hsplit] at hends ho
  -- the first line, what stands before the text, the text, what stands behind it
  have hfirst : here.Reaches w width _ _ := .token ho (hinner g.first_text.1)
  have hdone := h.of_reaches hfirst
  obtain ⟨es, s, hes, hs⟩ := Stream.exists_reaches [] xs hdone
    (by rw [List.append_assoc, List.cons_append]; rfl)
    (fun t ht => hends t (List.mem_append_left _ ht)) (hnameless hkind _)
  have htext : s.Reaches w width _ _ := .token hs (hinner hkind)
  obtain ⟨fs, there, hfs, hthere⟩ := Stream.exists_reaches [] ys
    ((hdone.of_reaches hes).of_reaches htext) rfl
    (fun t ht => hends t (List.mem_append_right _ (List.mem_cons_of_mem e ht)))
    (hnameless g.last_text.1 _)
  exact ⟨es, fs, there, hfirst.trans (hes.trans (htext.trans hfs)), hthere⟩

end Outline.BlankBetween

namespace Origin

open Document

variable {w : Workspace} {width : UInt64} {fileName source : String}

/-- Texts with an empty one between them stay apart, given the tokens that the nodes are made
from. -/
theorem apart_of_contents {d : Document} (h : d.Linked) (hcomplete : d.Complete)
    (hleaves : d.TextLeaves) (hpacked : d.Packed) {as bs cs ds : List Token} {p e q : Token}
    (hcontents : d.nodes.toList.map (·.toContent) =
      (as ++ p :: (bs ++ e :: (cs ++ q :: ds))).map Content.ofToken) (hempty : e.text = "") :
    (d.node as.length).toContent = .ofToken p ∧
      (d.node (as ++ p :: (bs ++ e :: cs)).length).toContent = .ofToken q ∧
      d.Apart d.joinLines as.length (as ++ p :: (bs ++ e :: cs)).length := by
  have hnode (before : List Token) {t : Token} {behind : List Token}
      (hsplit : as ++ p :: (bs ++ e :: (cs ++ q :: ds)) = before ++ t :: behind) :
      (d.node before.length).toContent = .ofToken t := by
    rw [hsplit] at hcontents
    exact content_of_tokens hcontents (by simp)
  have hmiddle : (d.node (as ++ p :: bs).length).toContent = .ofToken e :=
    hnode (as ++ p :: bs) (by simp : _ = _ ++ e :: (cs ++ q :: ds))
  refine ⟨hnode as rfl, hnode (as ++ p :: (bs ++ e :: cs)) (by simp : _ = _ ++ q :: ds), ?_⟩
  refine apart_of_empty h hcomplete hleaves hpacked (e := (as ++ p :: bs).length) ?_ ?_ ?_
  · simp
  · simp
  · rw [hmiddle, Content.ofToken, hempty, ite_self]

/-- A blank line between two lines of text separates paragraphs, if each directive before it has
another line of text behind it. It gives an empty text between the two lines; and wherever a reading
gets to the first of them, it goes on to the second, and no paragraph of the document holds both. -/
theorem blank_line_separates (g : Outline.BlankBetween width fileName source) :
    (∃ e ∈ g.between, e.kind = .text ∧ e.text = "" ∧ e.line = g.number) ∧
    ∀ (searchPaths : List String) (origin : Origin) (d : Document) (start here : Stream)
      (given : List Event) (outer : List (List Token)),
      origin.stream w width searchPaths = .ok start →
      origin.parse w width searchPaths = .ok d → start.Reaches w width given here →
      here.opened = (g.first :: (g.between ++ g.last :: g.behind)) :: outer →
      ∃ more there, here.Reaches w width more there ∧
        there.opened = (g.last :: g.behind) :: outer ∧
        let i := (Event.nodes given).length
        let k := (Event.nodes (given ++ more)).length
        (d.node i).toContent = .ofToken g.first ∧ (d.node k).toContent = .ofToken g.last ∧
          d.Apart d.joinLines i k := by
  obtain ⟨e, he, hkind, htext, hline⟩ := g.exists_empty
  refine ⟨⟨e, he, hkind, htext, hline⟩, ?_⟩
  intro searchPaths origin d start here given outer hstream hparse hreach hopened
  rw [parse_eq, hstream] at hparse
  have hread : Compile.readStream w width start = .ok d := hparse
  have hcompletes : start.Completes w width := by
    obtain ⟨-, ending, hfinished⟩ := Builder.tokens_of_build hread
    intro problem hfailed
    cases hfinished.symm.trans hfailed
  obtain ⟨es, fs, there, hmore, hthere⟩ :=
    g.exists_reaches (hcompletes.of_reaches hreach) he hkind hopened
  refine ⟨_, there, hmore, hthere, ?_⟩
  have hlast : Stream.isInner g.last.kind = false := by rw [g.last_text.1]; rfl
  have hrun := ((hreach.trans hmore).trans (Stream.Reaches.token hthere hlast)).run
  have hcontents : d.nodes.toList.map (·.toContent) =
      (Event.nodes (start.run w width).1).map Content.ofToken :=
    Compile.contents_of_readStream (kind_of_stream hstream) hread
  rw [hrun] at hcontents
  simp only [List.append_assoc, List.cons_append, List.nil_append, Event.nodes_append,
    Event.nodes_text g.first_text.1, Event.nodes_text hkind, Event.nodes_text g.last_text.1]
    at hcontents ⊢
  obtain ⟨b, hsound, hproblems, rfl⟩ := Builder.sound_of_build hread
  exact apart_of_contents hsound.linked (hsound.complete hproblems)
    (fun j hj => hsound.leaf j (by rw [hj]; rfl)) (Builder.packed_of_build hread) hcontents htext

/-- Two lines of text with an included file, a blank line and an embedded file between them. -/
def separatedOutline : String :=
  "Action:\n    p\n    Include: part.m6r\n    r\n\n    Embed: note.txt\n    q\n"

/-- An outline and two files it may take in, the included one empty. -/
def separatedWorkspace (main : String) : Workspace where
  tree.entries :=
    [(["main.m6r"], .file (Text.Utf8.encode main)), (["part.m6r"], .file []),
      (["note.txt"], .file (Text.Utf8.encode "n\n"))]

/-- A token of the main outline. -/
def mainToken (number : Nat) (line : String) (kind : TokenKind) (text : String) (column : Nat) :
    Token :=
  (Outline.Place.mk "main.m6r" number line.toList).token kind text column

/-- The lines with `p` and `q`. The line with `r` goes on with the text behind the included file. -/
def separatedLines : Outline.BlankBetween 4 "main.m6r" separatedOutline where
  before := [mainToken 1 "Action:" .action "Action:" 1, mainToken 2 "    p" .indent "[Indent]" 5]
  first := mainToken 2 "    p" .text "p" 5
  between :=
    [mainToken 3 "    Include: part.m6r" .includeFile "Include:" 5,
      mainToken 3 "    Include: part.m6r" .keywordText "part.m6r" 14,
      mainToken 4 "    r" .text "r" 5,
      mainToken 5 "" .text "" 5,
      mainToken 6 "    Embed: note.txt" .embedFiles "Embed:" 5,
      mainToken 6 "    Embed: note.txt" .keywordText "note.txt" 12]
  last := mainToken 7 "    q" .text "q" 5
  behind := [mainToken 8 "" .outdent "[Outdent]" 5, mainToken 8 "" .endOfFile "" 1]
  number := 5
  tokens_eq := by decide +kernel
  first_text := by decide
  last_text := by decide
  inside := by decide
  is_blank := by decide +kernel
  first_above := by decide
  last_below := by decide
  resumed := by decide

/-- The two lines are in the first and in the last paragraph of their section. -/
theorem blank_line_separates_sample :
    ∃ d k, (Origin.file "main.m6r").parse (separatedWorkspace separatedOutline) 4 [] = .ok d ∧
      (d.node 1).toContent = .ofToken separatedLines.first ∧
      (d.node k).toContent = .ofToken separatedLines.last ∧
      d.Apart d.joinLines 1 k ∧ (d.joinLines.node 0).children = [1, 4, 5, 8] := by
  have hended : (Round.after (separatedWorkspace separatedOutline) 4 40
      (Origin.start (separatedWorkspace separatedOutline) 4 []
        (.file "main.m6r"))).document?.map (fun d => (d.joinLines.node 0).children) =
        some [1, 4, 5, 8] := by decide +kernel
  obtain ⟨d, hd, hchildren⟩ := Option.map_eq_some_iff.mp hended
  have hload : Sources.load {} (separatedWorkspace separatedOutline) "main.m6r" =
      ({ used := [["main.m6r"]] }, .ok ⟨"main.m6r", ["main.m6r"], separatedOutline⟩) := by
    decide +kernel
  have hstream : (Origin.file "main.m6r").stream (separatedWorkspace separatedOutline) 4 [] =
      .ok { sources := { used := [["main.m6r"]] },
            opened := [Outline.tokens 4 "main.m6r" separatedOutline] } := by
    simp only [Origin.stream, hload]
  have hparse : (Origin.file "main.m6r").parse (separatedWorkspace separatedOutline) 4 [] = .ok d :=
    Origin.parse_of_ended (Round.ended_of_document? hd)
  -- the reading gives the keyword and the indentation before it gets to the first line
  have hopened : Outline.tokens 4 "main.m6r" separatedOutline = _ := separatedLines.tokens_eq
  have haction : Stream.Reaches (separatedWorkspace separatedOutline) 4
      { sources := { used := [["main.m6r"]] }, opened := [_] } _ _ :=
    .token (congrArg (· :: []) hopened) rfl
  have hindent := haction.trans (Stream.Reaches.token rfl rfl)
  obtain ⟨-, happart⟩ := Origin.blank_line_separates separatedLines
  obtain ⟨more, there, -, -, hp, hq, hpq⟩ :=
    happart [] (.file "main.m6r") d _ _ _ [] hstream hparse hindent rfl
  exact ⟨d, _, hparse, hp, hq, hpq, hchildren⟩

/-- Two lines of text with an included file and then a blank line between them. -/
def closedOutline : String := "Action:\n    p\n    Include: part.m6r\n\n    q\n"

/-- Where no line of text is between a directive and the blank line, the blank line is lost: it
gives no token, and the lines before and behind it go into one paragraph. -/
theorem joined_over_blank_line :
    ∃ before p between q behind,
      Outline.tokens 4 "main.m6r" closedOutline = before ++ p :: (between ++ q :: behind) ∧
      (p.kind = .text ∧ p.text = "p") ∧ (q.kind = .text ∧ q.text = "q") ∧
      (∀ t ∈ between, t.kind.isBlock = false ∧ t.kind ≠ .indent ∧ t.kind ≠ .outdent) ∧
      ((Text.lines closedOutline.toList)[4 - 1]?).map Outline.lineContent = some [] ∧
      p.line < 4 ∧ 4 < q.line ∧ (∀ e ∈ between, ¬ (e.kind = .text ∧ e.text = "")) ∧
      ∃ d, (Origin.file "main.m6r").parse (separatedWorkspace closedOutline) 4 [] = .ok d ∧
        (d.node 1).toContent = .ofToken p ∧ (d.node 2).toContent = .ofToken q ∧
        (d.joinLines.node 0).children = [1] ∧ (d.joinLines.node 1).form = .paragraph ∧
        (d.joinLines.node 1).value = "p\nq" := by
  have hended : (Round.after (separatedWorkspace closedOutline) 4 40
      (Origin.start (separatedWorkspace closedOutline) 4 [] (.file "main.m6r"))).document?.map
      (fun d => ((d.node 1).toContent, (d.node 2).toContent, (d.joinLines.node 0).children,
        (d.joinLines.node 1).form, (d.joinLines.node 1).value)) =
        some (.ofToken (mainToken 2 "    p" .text "p" 5),
          .ofToken (mainToken 5 "    q" .text "q" 5), [1], .paragraph, "p\nq") := by decide +kernel
  obtain ⟨d, hd, hfacts⟩ := Option.map_eq_some_iff.mp hended
  simp only [Prod.mk.injEq] at hfacts
  have htokens : Outline.tokens 4 "main.m6r" closedOutline =
      [mainToken 1 "Action:" .action "Action:" 1, mainToken 2 "    p" .indent "[Indent]" 5] ++
        mainToken 2 "    p" .text "p" 5 ::
          ([mainToken 3 "    Include: part.m6r" .includeFile "Include:" 5,
            mainToken 3 "    Include: part.m6r" .keywordText "part.m6r" 14] ++
              mainToken 5 "    q" .text "q" 5 ::
                [mainToken 6 "" .outdent "[Outdent]" 5, mainToken 6 "" .endOfFile "" 1]) := by
    decide +kernel
  exact ⟨_, _, _, _, _, htokens, by decide, by decide, by decide, by decide +kernel, by decide,
    by decide, by decide, d, Origin.parse_of_ended (Round.ended_of_document? hd), hfacts⟩

end Origin

end PromptOutline
