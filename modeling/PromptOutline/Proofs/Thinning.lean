import PromptOutline.Proofs.Depth

/-!
# Documents with texts left out

Texts are the leaves of a document, and any number of them may stand side by side. So texts can be
left out of a derivation, and where a text stands, others may follow it: the blocks stay the same.
A derivation writes down one node for each keyword, name and text, in the order of its tokens.
Leaving out texts among the tokens therefore leaves out the nodes at their places.
-/

namespace PromptOutline

namespace Tree

private theorem length_preorderAll (depth : Nat) (ts : List Tree) :
    (preorderAll depth ts).length = countAll ts := by
  induction ts using forest_induction generalizing depth with
  | nil => rfl
  | cons c below beside ihbelow ihbeside =>
    simp only [preorderAll, preorder, List.cons_append, List.length_cons, List.length_append,
      ihbelow, ihbeside, countAll, count]
    omega

private theorem countAll_append (ts us : List Tree) :
    countAll (ts ++ us) = countAll ts + countAll us := by
  induction ts with
  | nil => simp [countAll]
  | cons t ts ih => simp only [List.cons_append, countAll, ih, Nat.add_assoc]

mutual

/-- A tree with what a view shows of its nodes, for a tree that is written down from a place on. A
node that is not shown is left out with everything below it. -/
def viewed (view : NodeId → Option Content) (id : NodeId) : Tree → Option Tree
  | node _ cs => (view id).map (node · (viewedAll view (id + 1) cs))

/-- Neighbouring trees with what a view shows of their nodes. -/
def viewedAll (view : NodeId → Option Content) (id : NodeId) : List Tree → List Tree
  | [] => []
  | t :: ts => (viewed view id t).toList ++ viewedAll view (id + t.count) ts

end

private theorem viewedAll_append (view : NodeId → Option Content) (id : NodeId)
    (ts us : List Tree) :
    viewedAll view id (ts ++ us) =
      viewedAll view id ts ++ viewedAll view (id + countAll ts) us := by
  induction ts generalizing id with
  | nil => rfl
  | cons t ts ih => simp only [List.cons_append, viewedAll, countAll, ih, Nat.add_assoc,
      List.append_assoc]

end Tree

namespace Document

/-! ### What a view shows of a document -/

/-- What a view shows of the nodes that are reached from a node in at most `depth` steps. -/
def shownTo (d : Document) (view : NodeId → Option Content) : (depth : Nat) → NodeId → Option Tree
  | 0, id => (view id).map (.node · [])
  | depth + 1, id =>
    (view id).map (.node · ((d.node id).children.filterMap (d.shownTo view depth)))

/-- What a view shows of the tree below a node. -/
def shown (d : Document) (view : NodeId → Option Content) (id : NodeId) : Option Tree :=
  d.shownTo view d.size id

private theorem Spans.length_ids {d : Document} {roots ids : List NodeId} {ts : List Tree}
    (h : Spans d roots ts ids) : ids.length = Tree.countAll ts := by
  induction h with
  | nil => rfl
  | cons _ _ _ _ ihbelow ihbeside =>
    simp only [List.length_cons, List.length_append, ihbelow, ihbeside, Tree.countAll, Tree.count]
    omega

/-- Trees that are written down from a place on are shown by the places of their nodes. -/
theorem Spans.shownTo {d : Document} {view : NodeId → Option Content} {roots ids : List NodeId}
    {ts : List Tree} (h : Spans d roots ts ids) {id depth : Nat}
    (hids : ids = List.range' id (Tree.countAll ts)) (hdepth : ids.length ≤ depth + 1) :
    roots.filterMap (d.shownTo view depth) = Tree.viewedAll view id ts := by
  induction h generalizing id depth with
  | nil => rfl
  | @cons first roots c cs ts below beside hfirst hc hbelow hbeside ihbelow ihbeside =>
    simp only [List.length_cons, List.length_append] at hdepth
    have hcount : Tree.countAll (.node c cs :: ts) = Tree.countAll cs + Tree.countAll ts + 1 := by
      simp only [Tree.countAll, Tree.count]
      omega
    rw [hcount, List.range'_succ, ← List.range'_append_1, List.cons.injEq] at hids
    obtain ⟨rfl, hids⟩ := hids
    obtain ⟨hcs, hts⟩ := List.append_inj hids (by rw [hbelow.length_ids, List.length_range'])
    have hhead : d.shownTo view depth first = Tree.viewed view first (.node c cs) := by
      cases depth with
      | zero =>
        have hnil : cs = [] := hbelow.eq_nil (List.length_eq_zero_iff.mp (by omega))
        rw [Document.shownTo, Tree.viewed, hnil]
        rfl
      | succ depth => rw [Document.shownTo, Tree.viewed, ihbelow hcs (by omega)]
    have htail : roots.filterMap (d.shownTo view depth) =
        Tree.viewedAll view (first + (Tree.node c cs).count) ts := by
      refine ihbeside ?_ (by omega)
      rw [hts, Tree.count]
      congr 1
      omega
    rw [Tree.viewedAll, ← htail, ← hhead, List.filterMap_cons]
    cases d.shownTo view depth first <;> rfl

private theorem shown_ofForest (view : NodeId → Option Content) (ts : List Tree) :
    (Tree.places 0 ts).filterMap ((ofForest ts).shown view) = Tree.viewedAll view 0 ts := by
  refine (spans_ofForest ts).shownTo rfl ?_
  rw [List.length_range', size_ofForest]
  exact Nat.le_succ _

/-- A view that shows every node but texts shows the first tree of a kind first. -/
theorem shown_placeOf? {d : Document} {view : NodeId → Option Content}
    (hview : ∀ i, (d.node i).isText = false → view i = some (d.node i).toContent)
    (kind : TokenKind) {ts : List Tree} (hk : ∀ t ∈ ts, t.content.kind.isBlock = true)
    {id : NodeId} {ids : List NodeId} (h : Spans d (Tree.places id ts) ts ids) :
    (placeOf? kind id ts).map (d.shown view) =
      (((Tree.places id ts).filterMap (d.shown view)).find? (·.content.kind = kind)).map some := by
  induction ts generalizing id ids with
  | nil => rfl
  | cons t ts ih =>
    cases h with
    | @cons _ _ c cs _ _ _ _ hcontent _ hbeside =>
      have htext : (d.node id).isText = false := by
        have hblock : c.kind.isBlock = true := hk (.node c cs) (by simp)
        rw [← hcontent] at hblock
        cases hkind : (d.node id).kind with
        | text =>
          rw [hkind] at hblock
          cases hblock
        | _ => simp [Content.isText, hkind]
      obtain ⟨below, hshown⟩ : ∃ below, d.shown view id = some (.node c below) := by
        rw [← hcontent, shown]
        cases d.size <;> exact ⟨_, by rw [shownTo, hview id htext]; rfl⟩
      rw [Tree.places, placeOf?, List.filterMap_cons_some hshown, List.find?_cons]
      by_cases hkind : c.kind = kind
      · simp [hkind, hshown, Tree.content]
      · simp [hkind, Tree.content, ih (fun u hu => hk u (by simp [hu])) hbeside]

/-- What a view that shows every node but texts shows of a section. -/
theorem shown_root? {ts : List Tree} (hk : ∀ t ∈ ts, t.content.kind.isBlock = true)
    {view : NodeId → Option Content}
    (hview : ∀ i, ((ofForest ts).node i).isText = false →
      view i = some ((ofForest ts).node i).toContent) (s : Section) :
    ((ofForest ts).root? s).map ((ofForest ts).shown view) =
      ((Tree.viewedAll view 0 ts).find? (·.content.kind = s.kind)).map some := by
  rw [root?_ofForest, shown_placeOf? hview s.kind hk (spans_ofForest ts), shown_ofForest]

end Document

namespace Grammar

/-! ### Leaving out texts -/

/-- A change of tokens that leaves out texts only and keeps all other tokens as they are. -/
structure Thins (f : Token → Option Token) : Prop where
  keeps : ∀ t, t.kind ≠ .text → f t = some t
  kinds : ∀ t, ∀ u ∈ f t, u.kind = t.kind

/-- A view that shows what is listed, from a place on. -/
def Shows (view : NodeId → Option Content) (id : NodeId) (cs : List (Option Content)) : Prop :=
  (List.range' id cs.length).map view = cs

private theorem shows_cons {view : NodeId → Option Content} {id : NodeId} {c : Option Content}
    {cs : List (Option Content)} :
    Shows view id (c :: cs) ↔ view id = c ∧ Shows view (id + 1) cs := by
  simp [Shows, List.range'_succ]

private theorem shows_append {view : NodeId → Option Content} {id : NodeId}
    {cs cs' : List (Option Content)} :
    Shows view id (cs ++ cs') ↔ Shows view id cs ∧ Shows view (id + cs.length) cs' := by
  rw [Shows, List.length_append, ← List.range'_append_1, List.map_append]
  constructor
  · intro h
    exact List.append_inj h (by simp)
  · rintro ⟨h, h'⟩
    rw [Shows] at h h'
    rw [h, h']

/-- The contents of tokens after a change. -/
def contentsBy (f : Token → Option Token) (ts : List Token) : List (Option Content) :=
  ts.map fun t => (f t).map Content.ofToken

private theorem shows_contentsBy_cons {f : Token → Option Token} {view : NodeId → Option Content}
    {id : NodeId} {t : Token} {ts : List Token} :
    Shows view id (contentsBy f (t :: ts)) ↔
      view id = (f t).map Content.ofToken ∧ Shows view (id + 1) (contentsBy f ts) :=
  shows_cons

private theorem contentsBy_append (f : Token → Option Token) (ts us : List Token) :
    contentsBy f (ts ++ us) = contentsBy f ts ++ contentsBy f us :=
  List.map_append

/-- A change gives one content, or none, for each token. -/
theorem length_contentsBy (f : Token → Option Token) (ts : List Token) :
    (contentsBy f ts).length = ts.length :=
  List.length_map _

private theorem countAll_leaves (ts : List Token) : Tree.countAll (ts.map leaf) = ts.length := by
  induction ts with
  | nil => rfl
  | cons t ts ih =>
    rw [List.map_cons, Tree.countAll, ih, leaf, Tree.count, Tree.countAll, List.length_cons]
    omega

private theorem Blocks.countAll {kinds : List TokenKind} {ts : List Token} {forest : List Tree}
    (h : Blocks kinds ts forest) (hk : ∀ k ∈ kinds, k.isBlock = true) :
    Tree.countAll forest = (ts.filter isNode).length := by
  rw [← Tree.length_preorderAll 0, ← List.length_map (·.2), h.contents hk, List.length_map]

private theorem viewedAll_leaves {f : Token → Option Token} {view : NodeId → Option Content}
    {id : NodeId} {ts : List Token} (h : Shows view id (contentsBy f ts)) :
    Tree.viewedAll view id (ts.map leaf) = (ts.filterMap f).map leaf := by
  induction ts generalizing id with
  | nil => rfl
  | cons t ts ih =>
    obtain ⟨hview, hrest⟩ := shows_contentsBy_cons.mp h
    rw [List.map_cons, Tree.viewedAll, leaf, Tree.viewed, hview, Tree.count, Tree.countAll,
      ih hrest, List.filterMap_cons]
    cases f t <;> rfl

namespace Thins

variable {f : Token → Option Token}

private theorem keeps_block (hf : Thins f) {t : Token} (ht : t.kind.isBlock = true) :
    f t = some t := by
  refine hf.keeps t fun he => ?_
  rw [he] at ht
  cases ht

private theorem keeps_name (hf : Thins f) {name? : Option Token}
    (hname : ∀ t ∈ name?, t.kind = .keywordText) :
    name?.toList.filterMap f = name?.toList := by
  cases name? with
  | none => rfl
  | some t =>
    have ht : f t = some t := hf.keeps t (by simp [hname t rfl])
    simp [ht]

/-- Of a block, only texts are left out. -/
theorem filterMap_block (hf : Thins f) {keyword indent outdent : Token} {name? : Option Token}
    (hkeyword : keyword.kind.isBlock = true) (hname : ∀ t ∈ name?, t.kind = .keywordText)
    (hindent : indent.kind = .indent) (houtdent : outdent.kind = .outdent)
    (texts inner rest : List Token) :
    (blockTokens keyword name? indent texts inner outdent ++ rest).filterMap f =
      blockTokens keyword name? indent (texts.filterMap f) (inner.filterMap f) outdent ++
        rest.filterMap f := by
  have hindent' : f indent = some indent := hf.keeps indent (by simp [hindent])
  have houtdent' : f outdent = some outdent := hf.keeps outdent (by simp [houtdent])
  simp [blockTokens, hf.keeps_block hkeyword, hf.keeps_name hname, hindent', houtdent']

end Thins

private theorem count_blockTree (keyword : Token) (name? : Option Token) (texts : List Token)
    (nested : List Tree) :
    (blockTree keyword name? texts nested).count =
      1 + name?.toList.length + texts.length + Tree.countAll nested := by
  rw [blockTree, Tree.count, Tree.countAll_append, Tree.countAll_append, countAll_leaves,
    countAll_leaves]
  omega

/-- What is shown of a block: its keyword, its name, and what is shown of its texts and of the
blocks inside. -/
theorem viewed_block {f : Token → Option Token} (hf : Thins f) {keyword : Token}
    {name? : Option Token} {texts : List Token} (hkeyword : keyword.kind.isBlock = true)
    (hname : ∀ t ∈ name?, t.kind = .keywordText) {view : NodeId → Option Content} {id : NodeId}
    (hhead : view id = (f keyword).map Content.ofToken)
    (hnames : Shows view (id + 1) (contentsBy f name?.toList))
    (hbody : Shows view (id + 1 + name?.toList.length) (contentsBy f texts))
    (nested : List Tree) :
    Tree.viewed view id (blockTree keyword name? texts nested) =
      some (blockTree keyword name? (texts.filterMap f)
        (Tree.viewedAll view (id + 1 + name?.toList.length + texts.length) nested)) := by
  rw [blockTree, Tree.viewed, hhead, hf.keeps_block hkeyword, Tree.viewedAll_append,
    Tree.viewedAll_append, viewedAll_leaves hnames, countAll_leaves, viewedAll_leaves hbody,
    countAll_leaves, hf.keeps_name hname]
  rfl

/-- Without some of its texts, a derivation gives what is shown of its trees. -/
theorem Blocks.thinned {f : Token → Option Token} (hf : Thins f) {kinds : List TokenKind}
    {ts : List Token} {forest : List Tree} (h : Blocks kinds ts forest)
    (hk : ∀ k ∈ kinds, k.isBlock = true) {view : NodeId → Option Content} {id : NodeId}
    (hview : Shows view id (contentsBy f (ts.filter isNode))) :
    Blocks kinds (ts.filterMap f) (Tree.viewedAll view id forest) ∧
      (Tree.viewedAll view id forest).map (·.content.kind) = forest.map (·.content.kind) := by
  induction h generalizing id with
  | nil => exact ⟨.nil, rfl⟩
  | @cons kinds keyword indent outdent name? texts inner rest nested others
      hkeyword hname hindent htexts hinner houtdent hrest ihinner ihrest =>
    have hblock := hk _ hkeyword
    have hnested := isBlock_of_nestedKinds keyword.kind
    -- what the view shows of the keyword, the name, the texts, the nested blocks and the others
    rw [filter_isNode_block hblock hname hindent htexts houtdent] at hview
    simp only [shows_contentsBy_cons, contentsBy_append, shows_append, length_contentsBy] at hview
    obtain ⟨hhead, hnames, hbody, hwithin, hbehind⟩ := hview
    have hplace : id + (blockTree keyword name? texts nested).count =
        id + 1 + name?.toList.length + texts.length + (inner.filter isNode).length := by
      rw [count_blockTree, hinner.countAll hnested]
      simp only [Nat.add_assoc]
    obtain ⟨ihinner, -⟩ := ihinner hnested hwithin
    obtain ⟨ihrest, ihkinds⟩ := ihrest hk hbehind
    rw [Tree.viewedAll, viewed_block hf hblock hname hhead hnames hbody nested, hplace,
      hf.filterMap_block hblock hname hindent houtdent]
    refine ⟨.cons hkeyword hname hindent (fun t ht => ?_) ihinner houtdent ihrest, ?_⟩
    · obtain ⟨u, hu, htu⟩ := List.mem_filterMap.mp ht
      rw [hf.kinds u t htu, htexts u hu]
    · exact congrArg (keyword.kind :: ·) ihkinds

/-- A document with some texts left out is a document, of the trees that are still seen. -/
theorem IsDocument.thinned {f : Token → Option Token} (hf : Thins f) {ts : List Token}
    {forest : List Tree} (h : IsDocument ts forest) {view : NodeId → Option Content}
    (hview : Shows view 0 (contentsBy f (ts.filter isNode))) :
    IsDocument (ts.filterMap f) (Tree.viewedAll view 0 forest) := by
  obtain ⟨hblocks, hkinds⟩ := h.blocks.thinned hf isBlock_of_topKinds hview
  exact ⟨hblocks, by rw [hkinds]; exact h.distinct⟩

/-! ### Adding texts -/

/-- `Padded ts us`: the tokens `us` are those of `ts` up to more than their kinds, with further
texts behind some of the texts. -/
inductive Padded : List Token → List Token → Prop where
  | nil : Padded [] []
  | cons {t u : Token} {more ts us : List Token} (hkind : u.kind = t.kind)
      (hmore : ∀ v ∈ more, t.kind = .text ∧ v.kind = .text) (h : Padded ts us) :
      Padded (t :: ts) (u :: (more ++ us))

namespace Padded

variable {ts us : List Token}

/-- Behind a token, nothing has to be added. -/
theorem step {t u : Token} (hkind : u.kind = t.kind) (h : Padded ts us) :
    Padded (t :: ts) (u :: us) :=
  @Padded.cons t u [] ts us hkind (by simp) h

/-- A list is padded by nothing. -/
theorem refl (ts : List Token) : Padded ts ts := by
  induction ts with
  | nil => exact .nil
  | cons t ts ih => exact ih.step rfl

/-- Two lists that are padded make one that is. -/
theorem append (h : Padded ts us) {ts' us' : List Token} (h' : Padded ts' us') :
    Padded (ts ++ ts') (us ++ us') := by
  induction h with
  | nil => exact h'
  | cons hkind hmore _ ih =>
    rw [List.cons_append, List.cons_append, List.append_assoc]
    exact .cons hkind hmore ih

/-- What stands behind a text belongs to the tokens up to it. -/
theorem split {ts' : List Token} (h : Padded (ts ++ ts') us) :
    ∃ vs vs', us = vs ++ vs' ∧ Padded ts vs ∧ Padded ts' vs' := by
  induction ts generalizing us with
  | nil => exact ⟨[], us, rfl, .nil, h⟩
  | cons t ts ih =>
    cases h with
    | @cons _ u more _ us hkind hmore h =>
      obtain ⟨vs, vs', rfl, hvs, hvs'⟩ := ih h
      exact ⟨u :: (more ++ vs), vs', by simp, .cons hkind hmore hvs, hvs'⟩

/-- A token that is no text stays alone. -/
theorem uncons {t : Token} (ht : t.kind ≠ .text) (h : Padded (t :: ts) us) :
    ∃ u vs, us = u :: vs ∧ u.kind = t.kind ∧ Padded ts vs := by
  cases h with
  | @cons _ u more _ vs hkind hmore h =>
    obtain rfl : more = [] := List.eq_nil_iff_forall_not_mem.mpr fun v hv => ht (hmore v hv).1
    exact ⟨u, vs, rfl, hkind, h⟩

private theorem texts (h : Padded ts us) (hts : ∀ t ∈ ts, t.kind = .text) :
    ∀ u ∈ us, u.kind = .text := by
  induction h with
  | nil => simp
  | cons hkind hmore _ ih =>
    intro u hu
    rcases List.mem_cons.mp hu with rfl | hu
    · rw [hkind, hts _ List.mem_cons_self]
    · rcases List.mem_append.mp hu with hu | hu
      · exact (hmore u hu).2
      · exact ih (fun t ht => hts t (List.mem_cons_of_mem _ ht)) u hu

private theorem name {name? : Option Token} (hname : ∀ t ∈ name?, t.kind = .keywordText)
    (h : Padded name?.toList us) :
    ∃ other? : Option Token, us = other?.toList ∧ ∀ t ∈ other?, t.kind = .keywordText := by
  cases name? with
  | none =>
    cases h
    exact ⟨none, rfl, by simp⟩
  | some t =>
    obtain ⟨u, vs, rfl, hu, hvs⟩ := h.uncons (by simp [hname t rfl])
    cases hvs
    exact ⟨some u, rfl, by simpa [hu] using hname t rfl⟩

end Padded

/-- With further texts behind its texts, a derivation has the same blocks. -/
theorem Blocks.padded {kinds : List TokenKind} {ts us : List Token} {forest : List Tree}
    (h : Blocks kinds ts forest) (hk : ∀ k ∈ kinds, k.isBlock = true) (hpadded : Padded ts us) :
    ∃ forest', Blocks kinds us forest' ∧
      forest'.map (·.content.kind) = forest.map (·.content.kind) := by
  induction h generalizing us with
  | nil =>
    cases hpadded
    exact ⟨[], .nil, rfl⟩
  | @cons kinds keyword indent outdent name? texts inner rest nested others
      hkeyword hname hindent htexts hinner houtdent hrest ihinner ihrest =>
    have hblock : keyword.kind ≠ .text := fun he => by
      have hkind := hk _ hkeyword
      rw [he] at hkind
      cases hkind
    obtain ⟨_, us', rfl, hfront, hus'⟩ := hpadded.split
    obtain ⟨keyword', _, rfl, hkeyword', hbehind⟩ := Padded.uncons hblock hfront
    obtain ⟨_, _, rfl, hnames, hbody⟩ := hbehind.split
    obtain ⟨name?', rfl, hname'⟩ := hnames.name hname
    obtain ⟨indent', _, rfl, hindent', hinside⟩ := hbody.uncons (by simp [hindent])
    obtain ⟨texts', _, rfl, htexts', hblocks⟩ := hinside.split
    obtain ⟨inner', _, rfl, hinner', hlast⟩ := hblocks.split
    obtain ⟨outdent', _, rfl, houtdent', hnone⟩ := hlast.uncons (by simp [houtdent])
    cases hnone
    obtain ⟨nested', hnested', -⟩ := ihinner (isBlock_of_nestedKinds _) hinner'
    obtain ⟨others', hothers', hkinds⟩ := ihrest hk hus'
    refine ⟨blockTree keyword' name?' texts' nested' :: others', ?_, ?_⟩
    · refine .cons (hkeyword' ▸ hkeyword) hname' (hindent'.trans hindent) (htexts'.texts htexts) ?_
        (houtdent'.trans houtdent) hothers'
      rw [hkeyword']
      exact hnested'
    · rw [List.map_cons, List.map_cons, hkinds, kind_blockTree, kind_blockTree, hkeyword']

/-- A document stays one when it is padded. -/
theorem IsDocument.padded {ts us : List Token} {forest : List Tree} (h : IsDocument ts forest)
    (hpadded : Padded ts us) : ∃ forest', IsDocument us forest' := by
  obtain ⟨forest', hblocks, hkinds⟩ := h.blocks.padded isBlock_of_topKinds hpadded
  exact ⟨forest', hblocks, by rw [hkinds]; exact h.distinct⟩

end Grammar

end PromptOutline
