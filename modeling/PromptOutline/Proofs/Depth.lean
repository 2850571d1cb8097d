import PromptOutline.Proofs.PlainOutline

/-!
# Depth in a tree is depth of indentation

A block or a text of an outline stands as many units right of the first column as there are blocks
around it. The tokens say so first: each stands at the column of the level that the marks before
it lead to, and later tokens stand on later lines. Along a derivation the level is the depth in the
trees, and a node's parent is the last block before it that stands one unit further left.
-/

namespace PromptOutline

/-- A node of a tree with its depth and its parent. -/
structure Visit where
  depth : Nat
  parent? : Option Content
  content : Content
  deriving Repr, DecidableEq

/-- Kinds of nodes that stand on a line of their own: blocks and texts. -/
def TokenKind.hasLine (k : TokenKind) : Bool := k.isBlock || k == .text

namespace Tree

mutual

/-- The nodes of a tree from the top down, each with its depth and its parent. -/
def visits (depth : Nat) (parent? : Option Content) : Tree → List Visit
  | node c cs => { depth, parent?, content := c } :: visitsAll (depth + 1) (some c) cs

/-- The nodes of neighbouring trees. -/
def visitsAll (depth : Nat) (parent? : Option Content) : List Tree → List Visit
  | [] => []
  | t :: ts => visits depth parent? t ++ visitsAll depth parent? ts

end

private theorem visitsAll_eq_flatMap (depth : Nat) (parent? : Option Content) (ts : List Tree) :
    visitsAll depth parent? ts = ts.flatMap (visits depth parent?) := by
  induction ts with
  | nil => rfl
  | cons t ts ih => rw [visitsAll, ih, List.flatMap_cons]

/-- The preorders of some trees are put one behind the other. -/
theorem preorderAll_eq_flatMap (depth : Nat) (ts : List Tree) :
    preorderAll depth ts = ts.flatMap (preorder depth) := by
  induction ts with
  | nil => rfl
  | cons t ts ih => rw [preorderAll, ih, List.flatMap_cons]

private theorem preorderAll_append (depth : Nat) (ts us : List Tree) :
    preorderAll depth (ts ++ us) = preorderAll depth ts ++ preorderAll depth us := by
  simp only [preorderAll_eq_flatMap, List.flatMap_append]

private theorem visitsAll_append (depth : Nat) (parent? : Option Content) (ts us : List Tree) :
    visitsAll depth parent? (ts ++ us) =
      visitsAll depth parent? ts ++ visitsAll depth parent? us := by
  simp only [visitsAll_eq_flatMap, List.flatMap_append]

private theorem mem_preorderAll_of_visit {depth : Nat} {parent? : Option Content} {ts : List Tree}
    {v : Visit} (hv : v ∈ visitsAll depth parent? ts) :
    (v.depth, v.content) ∈ preorderAll depth ts := by
  induction ts using forest_induction generalizing depth parent? with
  | nil => cases hv
  | cons c below beside ihbelow ihbeside =>
    simp only [visitsAll, visits, List.cons_append, List.mem_cons, List.mem_append] at hv
    simp only [preorderAll, preorder, List.cons_append, List.mem_cons, List.mem_append]
    rcases hv with rfl | hv | hv
    · exact .inl rfl
    · exact .inr (.inl (ihbelow hv))
    · exact .inr (.inr (ihbeside hv))

private theorem le_depth_of_mem {depth : Nat} {ts : List Tree} {x : Nat × Content}
    (hx : x ∈ preorderAll depth ts) : depth ≤ x.1 := by
  induction ts using forest_induction generalizing depth with
  | nil => cases hx
  | cons c below beside ihbelow ihbeside =>
    simp only [preorderAll, preorder, List.cons_append, List.mem_cons, List.mem_append] at hx
    rcases hx with rfl | hx | hx
    · exact Nat.le_refl _
    · exact Nat.le_of_succ_le (ihbelow hx)
    · exact ihbeside hx

/-- From the top down, only deeper nodes stand between a node and its parent. -/
theorem parent_of_visit {depth : Nat} {parent? : Option Content} {ts : List Tree} {v : Visit}
    (hv : v ∈ visitsAll depth parent? ts) :
    (v.depth = depth ∧ v.parent? = parent?) ∨
      ∃ d p before between after, v.depth = d + 1 ∧ v.parent? = some p ∧
        preorderAll depth ts =
          before ++ (d, p) :: (between ++ (d + 1, v.content) :: after) ∧
        ∀ x ∈ between, d < x.1 := by
  induction ts using forest_induction generalizing depth parent? with
  | nil => cases hv
  | cons c below beside ihbelow ihbeside =>
    have hmem {u : Visit} (hu : u ∈ visitsAll (depth + 1) (some c) below) :=
      mem_preorderAll_of_visit hu
    simp only [visitsAll, visits, List.cons_append, List.mem_cons, List.mem_append] at hv
    simp only [preorderAll, preorder, List.cons_append]
    rcases hv with rfl | hv | hv
    · exact .inl ⟨rfl, rfl⟩
    · rcases ihbelow hv with ⟨hdepth, hparent⟩ | ⟨d, p, before, between, after, hdepth, hparent,
        heq, hbetween⟩
      · -- the parent is the top node, and all before the node are below that
        obtain ⟨between, after, heq⟩ := List.append_of_mem (hmem hv)
        refine .inr ⟨depth, c, [], between, after ++ preorderAll depth beside, hdepth, hparent,
          ?_, ?_⟩
        · rw [heq, hdepth]
          simp
        · intro x hx
          have hbelow : x ∈ preorderAll (depth + 1) below := by
            rw [heq]
            exact List.mem_append_left _ hx
          exact le_depth_of_mem hbelow
      · refine .inr ⟨d, p, (depth, c) :: before, between, after ++ preorderAll depth beside, hdepth,
          hparent, ?_, hbetween⟩
        rw [heq]
        simp
    · rcases ihbeside hv with htop | ⟨d, p, before, between, after, hdepth, hparent, heq, hbetween⟩
      · exact .inl htop
      · refine .inr ⟨d, p, (depth, c) :: (preorderAll (depth + 1) below ++ before), between, after,
          hdepth, hparent, ?_, hbetween⟩
        rw [heq]
        simp

end Tree

/-! ### Columns and lines of tokens -/

namespace Outline

open Grammar (level? level?_append)

/-- Every block and every text stands at the column of its level, from level `k` on. -/
def Aligned (u : Nat) : Nat → List Token → Prop
  | _, [] => True
  | k, t :: ts =>
    (t.kind.hasLine = true → t.column = k * u + 1) ∧
      Aligned u (if t.kind = .indent then k + 1 else if t.kind = .outdent then k - 1 else k) ts

private theorem aligned_append {u k l : Nat} {ts us : List Token} (h : level? k ts = some l) :
    Aligned u k (ts ++ us) ↔ Aligned u k ts ∧ Aligned u l us := by
  induction ts generalizing k with
  | nil =>
    cases h
    simp [Aligned]
  | cons t ts ih =>
    rw [level?] at h
    rw [List.cons_append, Aligned, Aligned, and_assoc]
    refine and_congr_right fun _ => ?_
    split_ifs at h ⊢ with hindent houtdent
    · exact ih h
    · exact ih h
    · exact ih h

private theorem aligned_of_forall {u : Nat} {ts : List Token} (h : ∀ t ∈ ts, t.kind.hasLine = false)
    (k : Nat) : Aligned u k ts := by
  induction ts generalizing k with
  | nil => trivial
  | cons t ts ih =>
    refine ⟨fun ht => ?_, ih (fun v hv => h v (by simp [hv])) _⟩
    rw [h t (by simp)] at ht
    cases ht

private theorem hasLine_of_mark {t : Token} (h : t.kind = .indent ∨ t.kind = .outdent) :
    t.kind.hasLine = false := by
  rcases h with he | he <;> rw [he] <;> rfl

private theorem aligned_of_marks {u k l : Nat} {marks tail : List Token}
    (hmarks : ∀ t ∈ marks, t.kind = .indent ∨ t.kind = .outdent)
    (hlevel : level? k marks = some l) (htail : Aligned u l tail) : Aligned u k (marks ++ tail) :=
  (aligned_append hlevel).mpr
    ⟨aligned_of_forall (fun t ht => hasLine_of_mark (hmarks t ht)) k, htail⟩

private theorem aligned_keywordTokens {u l column : Nat} {kind : TokenKind} {word rest : List Char}
    (hcolumn : column = l * u + 1) (p : Place) :
    Aligned u l (keywordTokens p column kind word rest) := by
  refine ⟨fun _ => hcolumn, aligned_of_forall ?_ _⟩
  intro t ht
  simp only [List.mem_ite_nil_left, List.mem_singleton] at ht
  rw [ht.2]
  rfl

/-- A line from a level on: its tokens stand at the columns of their levels. -/
theorem GoodReading.aligned {u k : Nat} {m : Margin} {p : Place} {r : Margin × List Token}
    (hu : 0 < u) (hm : m.column = k * u + 1) (h : GoodReading u m p r) : Aligned u k r.2 := by
  have hpos : 0 < startColumn p.line := Nat.succ_pos _
  cases h with
  | blank =>
    split
    · exact ⟨fun _ => hm, trivial⟩
    · trivial
  | comment => trivial
  | keyword _ _ _ _ hshift =>
    rw [hm] at hshift
    obtain ⟨l, hl, hcolumn⟩ := level?_moved hu hpos hshift
    exact aligned_of_marks (kinds_of_moved hshift) hl (aligned_keywordTokens hcolumn p)
  | kept => exact ⟨fun _ => hm, trivial⟩
  | text _ _ _ _ _ hshift =>
    rw [hm] at hshift
    obtain ⟨l, hl, hcolumn⟩ := level?_moved hu hpos hshift
    exact aligned_of_marks (kinds_of_moved hshift) hl ⟨fun _ => hcolumn, trivial⟩

private theorem GoodReading.level {u k : Nat} {m : Margin} {p : Place} {r : Margin × List Token}
    (hu : 0 < u) (hm : m.column = k * u + 1) (h : GoodReading u m p r) :
    ∃ l, level? k r.2 = some l ∧ r.1.column = l * u + 1 := by
  rw [← readLine_of_good h]
  exact (readLine_reading u m p).level hu hm

/-- The tokens of an outline stand at the columns of their levels. -/
theorem aligned_content {width : UInt64} {fileName source : String} (hwidth : PlainWidth width)
    (hgood : ∀ t ∈ content width fileName source, isBadMark t.kind = false) :
    Aligned width.toNat 0 (content width fileName source) := by
  unfold content at hgood ⊢
  rw [signedUnit_eq hwidth] at hgood ⊢
  obtain ⟨⟨k, hlevel, hmargin⟩, haligned⟩ := readLines_invariant_of_good
    (fun _ m ts => (∃ k, level? 0 ts = some k ∧ m.column = k * width.toNat + 1) ∧
      Aligned width.toNat 0 ts)
    (fun t ht => hgood t (List.mem_append_left _ ht)) ⟨⟨0, rfl, by simp⟩, trivial⟩ (by
      rintro line - number seen m ts r ⟨⟨k, hk, hm⟩, hts⟩ hread
      obtain ⟨l, hl, hcolumn⟩ := hread.level hwidth.1 hm
      refine ⟨⟨l, by rw [level?_append, hk, Option.bind_some, hl], hcolumn⟩, ?_⟩
      exact (aligned_append hk).mpr ⟨hts, hread.aligned hwidth.1 hm⟩)
  refine (aligned_append hlevel).mpr ⟨haligned, aligned_of_forall (fun t ht => ?_) k⟩
  exact hasLine_of_mark (.inr (kind_of_mem_closingMarks ht))

/-- The order of tokens is that of their lines: blocks and texts have a line each, and the text of
a keyword line shares that of the token before it. -/
structure InOrder (ts : List Token) : Prop where
  lines : ts.Pairwise fun a b => a.kind.hasLine = true → b.kind.hasLine = true → a.line < b.line
  names : ts.IsChain fun a b => b.kind = .keywordText → b.line = a.line

private theorem GoodReading.number {unit : Int} {m : Margin} {p : Place} {r : Margin × List Token}
    (h : GoodReading unit m p r) : ∀ t ∈ r.2, t.line = p.number := by
  have hmarks {column : Nat} {marks : List Token}
      (hshift : shift unit m.column p column = .moved marks) : ∀ t ∈ marks, t.line = p.number := by
    unfold shift at hshift
    dsimp only at hshift
    split_ifs at hshift <;> cases hshift
    · simp
    · intro t ht
      rw [List.eq_of_mem_replicate ht]
      rfl
    · intro t ht
      rw [List.eq_of_mem_replicate ht]
      rfl
  intro t ht
  cases h with
  | blank =>
    simp only [List.mem_ite_nil_right, List.mem_singleton] at ht
    rw [ht.2]
    rfl
  | comment => cases ht
  | keyword _ _ _ _ hshift =>
    rcases List.mem_append.mp ht with ht | ht
    · exact hmarks hshift t ht
    · simp only [keywordTokens, List.mem_cons, List.mem_ite_nil_left, List.not_mem_nil,
        or_false] at ht
      rcases ht with rfl | ⟨-, rfl⟩ <;> rfl
  | kept =>
    rw [List.mem_singleton.mp ht]
    rfl
  | text _ _ _ _ _ hshift =>
    rcases List.mem_append.mp ht with ht | ht
    · exact hmarks hshift t ht
    · rw [List.mem_singleton.mp ht]
      rfl

/-- A line gives at most one block or text. -/
theorem GoodReading.single {unit : Int} {m : Margin} {p : Place} {r : Margin × List Token}
    (h : GoodReading unit m p r) :
    r.2.Pairwise fun a b => a.kind.hasLine = true → b.kind.hasLine = true → False := by
  have hmarks {column : Nat} {marks tail : List Token}
      (hshift : shift unit m.column p column = .moved marks)
      (htail : tail.Pairwise fun a b => a.kind.hasLine = true → b.kind.hasLine = true → False) :
      (marks ++ tail).Pairwise fun a b =>
        a.kind.hasLine = true → b.kind.hasLine = true → False := by
    have hnone : ∀ t ∈ marks, t.kind.hasLine ≠ true := fun t ht => by
      simp [hasLine_of_mark (kinds_of_moved hshift t ht)]
    refine List.pairwise_append.mpr ⟨?_, htail, fun a ha b _ h => absurd h (hnone a ha)⟩
    exact List.pairwise_of_forall_mem_list fun a ha b _ h => absurd h (hnone a ha)
  cases h with
  | blank =>
    split
    · exact List.pairwise_singleton _ _
    · exact .nil
  | comment => exact .nil
  | keyword _ _ _ _ hshift =>
    refine hmarks hshift (List.pairwise_cons.mpr ⟨?_, ?_⟩)
    · intro t ht _ hline
      simp only [List.mem_ite_nil_left, List.mem_singleton] at ht
      rw [ht.2] at hline
      cases hline
    · split
      · exact .nil
      · exact List.pairwise_singleton _ _
  | kept => exact List.pairwise_singleton _ _
  | text _ _ _ _ _ hshift => exact hmarks hshift (List.pairwise_singleton _ _)

/-- Lines from a number on give tokens in order, none of them before that line. -/
theorem inOrder_readLines {unit : Int} {fileName : String} {m : Margin} {number : Nat}
    {lines : List (List Char)}
    (hgood : ∀ t ∈ (readLines unit fileName m number lines).2, isBadMark t.kind = false) :
    InOrder (readLines unit fileName m number lines).2 ∧
      ∀ t ∈ (readLines unit fileName m number lines).2, number ≤ t.line := by
  induction lines generalizing m number with
  | nil => exact ⟨⟨.nil, .nil⟩, by simp [readLines]⟩
  | cons line rest ih =>
    have hread := readLine_reading unit m { fileName, number, line }
    simp only [readLines] at hgood ⊢
    have hline := hread.good fun t ht => hgood t (List.mem_append_left _ ht)
    obtain ⟨horder, hfrom⟩ := ih fun t ht => hgood t (List.mem_append_right _ ht)
    generalize readLine unit m { fileName, number, line } = r at hread hline horder hfrom ⊢
    have hnumber : ∀ t ∈ r.2, t.line = number := hline.number
    refine ⟨⟨?_, ?_⟩, ?_⟩
    · refine List.pairwise_append.mpr ⟨?_, horder.lines, ?_⟩
      · exact hline.single.imp fun h ha hb => (h ha hb).elim
      · intro a ha b hb _ _
        rw [hnumber a ha]
        exact hfrom b hb
    · refine List.isChain_append.mpr ⟨?_, horder.names, ?_⟩
      · refine List.Pairwise.isChain (List.pairwise_of_forall_mem_list fun a ha b hb _ => ?_)
        rw [hnumber a ha, hnumber b hb]
      · intro a _ b hb hname
        exact absurd hname ((guarded_readLines unit fileName r.1 (number + 1) rest).head b hb)
    · intro t ht
      rcases List.mem_append.mp ht with ht | ht
      · exact Nat.le_of_eq (hnumber t ht).symm
      · exact Nat.le_of_succ_le (hfrom t ht)

private theorem inOrder_content {width : UInt64} {fileName source : String}
    (hgood : ∀ t ∈ content width fileName source, isBadMark t.kind = false) :
    InOrder (content width fileName source) := by
  obtain ⟨horder, -⟩ := inOrder_readLines fun t ht => hgood t (List.mem_append_left _ ht)
  have hmark {column : Nat} {number : Nat} {t : Token}
      (ht : t ∈ closingMarks (atLeastOne width).toNat fileName number column) :
      t.kind = .outdent := kind_of_mem_closingMarks ht
  constructor
  · refine List.pairwise_append.mpr ⟨horder.lines, ?_, ?_⟩
    · refine List.pairwise_of_forall_mem_list fun a ha b _ h => ?_
      rw [hasLine_of_mark (.inr (hmark ha))] at h
      cases h
    · intro a _ b hb _ h
      rw [hasLine_of_mark (.inr (hmark hb))] at h
      cases h
  · refine List.isChain_append.mpr ⟨horder.names, ?_, ?_⟩
    · refine List.Pairwise.isChain (List.pairwise_of_forall_mem_list fun a _ b hb h => ?_)
      rw [hmark hb] at h
      cases h
    · intro a _ b hb h
      rw [hmark (List.mem_of_mem_head? hb)] at h
      cases h

end Outline

/-! ### Derivations -/

namespace Grammar

open Outline PromptOutline.Tree

/-- Whether a token leaves a node in the trees of a derivation. -/
def isNode (t : Token) : Bool := t.kind.hasLine || t.kind == .keywordText

private theorem preorderAll_leaves (depth : Nat) (ts : List Token) :
    preorderAll depth (ts.map leaf) = ts.map fun t => (depth, Content.ofToken t) := by
  induction ts with
  | nil => rfl
  | cons t ts ih => simp [preorderAll, leaf, preorder, ih]

private theorem visitsAll_leaves (depth : Nat) (parent? : Option Content) (ts : List Token) :
    visitsAll depth parent? (ts.map leaf) =
      ts.map fun t => { depth, parent?, content := .ofToken t } := by
  induction ts with
  | nil => rfl
  | cons t ts ih => simp [visitsAll, leaf, visits, ih]

private theorem column_of_aligned_texts {u k : Nat} {texts : List Token}
    (htexts : ∀ t ∈ texts, t.kind = .text) (h : Aligned u k texts) :
    ∀ t ∈ texts, t.column = k * u + 1 := by
  induction texts with
  | nil => simp
  | cons t texts ih =>
    have ht : t.kind = .text := htexts t (by simp)
    simp only [Aligned, ht, reduceCtorEq, if_false] at h
    intro v hv
    rcases List.mem_cons.mp hv with rfl | hv
    · exact h.1 rfl
    · exact ih (fun v hv => htexts v (by simp [hv])) h.2 v hv

private theorem hasLine_of_isBlock {k : TokenKind} (h : k.isBlock = true) : k.hasLine = true := by
  rw [TokenKind.hasLine, h]
  rfl

/-- In a block, the keyword, the name and the texts leave nodes. -/
theorem filter_isNode_block {keyword indent outdent : Token} {name? : Option Token}
    {texts : List Token} (hkeyword : keyword.kind.isBlock = true)
    (hname : ∀ t ∈ name?, t.kind = .keywordText) (hindent : indent.kind = .indent)
    (htexts : ∀ t ∈ texts, t.kind = .text) (houtdent : outdent.kind = .outdent)
    (inner rest : List Token) :
    (blockTokens keyword name? indent texts inner outdent ++ rest).filter isNode =
      keyword :: (name?.toList ++ (texts ++ (inner.filter isNode ++ rest.filter isNode))) := by
  have hhead : isNode keyword = true := by
    rw [isNode, hasLine_of_isBlock hkeyword]
    rfl
  have hnames : name?.toList.filter isNode = name?.toList :=
    List.filter_eq_self.mpr fun t ht => by simp [isNode, hname t (by simpa using ht)]
  have hbody : texts.filter isNode = texts :=
    List.filter_eq_self.mpr fun t ht => by simp [isNode, TokenKind.hasLine, htexts t ht]
  have hmark {t : Token} (ht : t.kind = .indent ∨ t.kind = .outdent) : isNode t = false := by
    rcases ht with he | he <;> simp [isNode, he, TokenKind.hasLine, TokenKind.isBlock]
  simp only [blockTokens, List.cons_append, List.append_assoc, List.filter_cons,
    List.filter_append, List.filter_nil, hhead, hnames, hbody, hmark (.inl hindent),
    hmark (.inr houtdent)]
  simp

/-- From the top down, the nodes of a derivation are those of its tokens. -/
theorem Blocks.contents {kinds : List TokenKind} {ts : List Token} {forest : List Tree}
    (h : Blocks kinds ts forest) (hk : ∀ k ∈ kinds, k.isBlock = true) (depth : Nat) :
    (preorderAll depth forest).map (·.2) = (ts.filter isNode).map Content.ofToken := by
  induction h generalizing depth with
  | nil => rfl
  | @cons kinds keyword indent outdent name? texts inner rest nested others
      hkeyword hname hindent htexts hinner houtdent hrest ihinner ihrest =>
    rw [filter_isNode_block (hk _ hkeyword) hname hindent htexts houtdent, preorderAll, blockTree,
      preorder, preorderAll_append, preorderAll_append, preorderAll_leaves, preorderAll_leaves]
    simp only [List.cons_append, List.append_assoc, List.map_cons, List.map_append, List.map_map,
      Function.comp_def, ihinner (isBlock_of_nestedKinds _), ihrest hk]

/-- Aligned tokens derive trees whose nodes stand at the columns of their depths. -/
theorem Blocks.columns {u : Nat} {kinds : List TokenKind} {ts : List Token} {forest : List Tree}
    (h : Blocks kinds ts forest) (hk : ∀ k ∈ kinds, k.isBlock = true) {depth : Nat}
    (haligned : Aligned u depth ts) :
    ∀ x ∈ preorderAll depth forest, x.2.kind.hasLine = true → x.2.column = x.1 * u + 1 := by
  induction h generalizing depth with
  | nil => simp [preorderAll]
  | @cons kinds keyword indent outdent name? texts inner rest nested others
      hkeyword hname hindent htexts hinner houtdent hrest ihinner ihrest =>
    have hblock := hk _ hkeyword
    have hnested := isBlock_of_nestedKinds keyword.kind
    have hlevel := level?_block hblock hname hindent htexts houtdent depth
      (hinner.level?_eq hnested (depth + 1))
    obtain ⟨hfirst, hothers⟩ := (aligned_append hlevel).mp haligned
    -- the block in its parts, each from the level before it on
    have hopen : level? depth [indent] = some (depth + 1) := by simp [level?, hindent]
    have hparts : blockTokens keyword name? indent texts inner outdent =
        (keyword :: name?.toList) ++ ([indent] ++ (texts ++ (inner ++ [outdent]))) := by
      simp [blockTokens]
    rw [hparts, aligned_append (level?_head hblock hname depth), aligned_append hopen,
      aligned_append (level?_texts htexts _), aligned_append (hinner.level?_eq hnested _)] at hfirst
    obtain ⟨hhead, -, hbody, hwithin, -⟩ := hfirst
    intro x hx hline
    rw [preorderAll, blockTree, preorder, preorderAll_append, preorderAll_append,
      preorderAll_leaves, preorderAll_leaves] at hx
    simp only [List.cons_append, List.append_assoc, List.mem_cons, List.mem_append,
      List.mem_map, Option.mem_toList] at hx
    rcases hx with rfl | ⟨t, ht, rfl⟩ | ⟨t, ht, rfl⟩ | hx | hx
    · exact hhead.1 (hasLine_of_isBlock hblock)
    · rw [show (Content.ofToken t).kind = .keywordText from hname t ht] at hline
      cases hline
    · exact column_of_aligned_texts htexts hbody t ht
    · exact ihinner hnested hwithin x hx hline
    · exact ihrest hk hothers x hx hline

/-- Below blocks, every node has a block for its parent, and a name shares its line. -/
theorem Blocks.parents {kinds : List TokenKind} {ts : List Token} {forest : List Tree}
    (h : Blocks kinds ts forest) (hk : ∀ k ∈ kinds, k.isBlock = true)
    (hnames : ts.IsChain fun a b => b.kind = .keywordText → b.line = a.line) (depth : Nat)
    (parent? : Option Content) :
    ∀ v ∈ visitsAll depth parent? forest,
      (v.content.kind.isBlock = true ∧ v.parent? = parent?) ∨
      ∃ p, v.parent? = some p ∧ p.kind.isBlock = true ∧
        (v.content.kind = .keywordText → v.content.line = p.line) := by
  induction h generalizing depth parent? with
  | nil => simp [visitsAll]
  | @cons kinds keyword indent outdent name? texts inner rest nested others
      hkeyword hname hindent htexts hinner houtdent hrest ihinner ihrest =>
    have hblock : keyword.kind.isBlock = true := hk _ hkeyword
    have hinnerInfix : inner <:+: blockTokens keyword name? indent texts inner outdent ++ rest := by
      refine ⟨keyword :: (name?.toList ++ indent :: texts), outdent :: rest, ?_⟩
      simp [blockTokens]
    have hrestInfix : rest <:+: blockTokens keyword name? indent texts inner outdent ++ rest :=
      List.infix_append_right ..
    have hinnerChain := hnames.infix hinnerInfix
    have hrestChain := hnames.infix hrestInfix
    intro v hv
    rw [visitsAll, blockTree, visits, visitsAll_append, visitsAll_append, visitsAll_leaves,
      visitsAll_leaves] at hv
    simp only [List.cons_append, List.append_assoc, List.mem_cons, List.mem_append,
      List.mem_map, Option.mem_toList] at hv
    rcases hv with rfl | ⟨t, ht, rfl⟩ | ⟨t, ht, rfl⟩ | hv | hv
    · exact .inl ⟨hblock, rfl⟩
    · refine .inr ⟨_, rfl, hblock, fun _ => ?_⟩
      cases ht
      exact (List.isChain_cons_cons.mp hnames).1 (hname t rfl)
    · refine .inr ⟨_, rfl, hblock, fun he => ?_⟩
      rw [show (Content.ofToken t).kind = .text from htexts t ht] at he
      cases he
    · rcases ihinner (isBlock_of_nestedKinds _) hinnerChain (depth + 1) _ v hv with
        ⟨hkind, hparent⟩ | hbelow
      · refine .inr ⟨_, hparent, hblock, fun he => ?_⟩
        rw [he] at hkind
        cases hkind
      · exact .inr hbelow
    · exact ihrest hk hrestChain depth parent? v hv

end Grammar

namespace Document

/-- The nodes of all sections, each with its depth and its parent. -/
def visits (d : Document) : List Visit := Tree.visitsAll 0 none d.trees

/-- The blocks of all sections. -/
def blocks (d : Document) : List Content := (d.listing.map (·.2)).filter (·.kind.isBlock)

/-- Of the blocks that stand on a line before a node's and `unit` columns left of it, `p` is the
last one. -/
structure IsLastBefore (d : Document) (unit : Nat) (p c : Content) : Prop where
  block : p ∈ d.blocks
  line : p.line < c.line
  column : p.column + unit = c.column
  last : ∀ b ∈ d.blocks, b.line < c.line → b.column + unit = c.column → b = p ∨ b.line < p.line

end Document

namespace Compile

open Grammar Outline PromptOutline.Tree

/-- A node's parent is the last block before it that stands one unit further left, if from the top
down the nodes stand on later and later lines and at the columns of their depths. -/
theorem isLastBefore_of_preorder {d : Document} {forest : List Tree} {unit depth : Nat}
    {p c : Content} {before between after : List (Nat × Content)} (hunit : 0 < unit)
    (hblocks : ∀ b, b ∈ d.blocks ↔
      b ∈ (preorderAll 0 forest).map (·.2) ∧ b.kind.isBlock = true)
    (hpre : preorderAll 0 forest =
      before ++ (depth, p) :: (between ++ (depth + 1, c) :: after))
    (hlines : (preorderAll 0 forest).Pairwise fun x y =>
      x.2.kind.hasLine = true → y.2.kind.hasLine = true → x.2.line < y.2.line)
    (hcolumns : ∀ x ∈ preorderAll 0 forest, x.2.kind.hasLine = true →
      x.2.column = x.1 * unit + 1)
    (hdeeper : ∀ x ∈ between, depth < x.1) (hp : p.kind.isBlock = true)
    (hc : c.kind.hasLine = true) : d.IsLastBefore unit p c := by
  have hline {b : Content} (hb : b.kind.isBlock = true) : b.kind.hasLine = true := by
    rw [TokenKind.hasLine, hb]
    rfl
  rw [hpre] at hblocks hlines hcolumns
  have hcolumn := hcolumns (depth, p) (by simp) (hline hp)
  have hcolumn' := hcolumns (depth + 1, c) (by simp) hc
  dsimp only at hcolumn hcolumn'
  rw [Nat.add_mul] at hcolumn'
  obtain ⟨-, hrest, hbefore⟩ := List.pairwise_append.mp hlines
  obtain ⟨hbehind, hrest⟩ := List.pairwise_cons.mp hrest
  obtain ⟨-, hrest, -⟩ := List.pairwise_append.mp hrest
  obtain ⟨hafter, -⟩ := List.pairwise_cons.mp hrest
  refine ⟨(hblocks p).mpr ⟨by simp, hp⟩, ?_, by omega, ?_⟩
  · exact hbehind (depth + 1, c) (by simp) (hline hp) hc
  · intro b hb hearlier hleft
    obtain ⟨hmem, hblock⟩ := (hblocks b).mp hb
    simp only [List.map_append, List.map_cons, List.mem_append, List.mem_cons,
      List.mem_map] at hmem
    rcases hmem with ⟨x, hx, rfl⟩ | rfl | ⟨x, hx, rfl⟩ | rfl | ⟨x, hx, rfl⟩
    · exact .inr (hbefore x hx (depth, p) (by simp) (hline hblock) (hline hp))
    · exact .inl rfl
    · -- a block between the two is deeper than the parent, so it stands right of it
      have hright := hcolumns x (by simp [hx]) (hline hblock)
      have hmul : (depth + 1) * unit ≤ x.1 * unit := Nat.mul_le_mul_right unit (hdeeper x hx)
      rw [Nat.add_mul] at hmul
      omega
    · exact absurd hearlier (Nat.lt_irrefl _)
    · have hlater := hafter x hx hc (hline hblock)
      dsimp only at hlater
      omega

/-- In the document of an outline without directives, a block or a text at some depth stands that
many units right of the first column, a name stands on the line of its block, and the parent of a
block or a text is the last block on the lines before it that stands exactly one unit further left.
-/
theorem parseText_depth_eq_indentation {w : Workspace} {width : UInt64} {searchPaths : List String}
    {fileName source : String} {d : Document} (hwidth : PlainWidth width)
    (hplain : Undirected source) (h : parseText w width searchPaths fileName source = .ok d) :
    ∀ v ∈ d.visits,
      (v.content.kind.hasLine = true → v.content.column = v.depth * width.toNat + 1) ∧
      (v.content.kind = .keywordText → ∃ p ∈ v.parent?, v.content.line = p.line) ∧
      (v.content.kind.hasLine = true → v.depth ≠ 0 →
        ∃ p ∈ v.parent?, d.IsLastBefore width.toNat p v.content) := by
  obtain ⟨forest, hdoc, rfl⟩ := (parseText_eq_ok_iff hwidth hplain w searchPaths fileName d).mp h
  have hperm := Document.trees_perm_ofForest hdoc.isBlock hdoc.distinct
  have horder := inOrder_content hdoc.good
  have hcontents := hdoc.blocks.contents isBlock_of_topKinds 0
  have hcolumns := hdoc.blocks.columns isBlock_of_topKinds (aligned_content hwidth hdoc.good)
  have hlines : (preorderAll 0 forest).Pairwise fun x y =>
      x.2.kind.hasLine = true → y.2.kind.hasLine = true → x.2.line < y.2.line := by
    rw [← List.pairwise_map (f := fun x : Nat × Content => x.2)
      (R := fun x y : Content => x.kind.hasLine = true → y.kind.hasLine = true → x.line < y.line),
      hcontents, List.pairwise_map]
    exact horder.lines.filter isNode
  have hblocks (b : Content) : b ∈ (Document.ofForest forest).blocks ↔
      b ∈ (preorderAll 0 forest).map (·.2) ∧ b.kind.isBlock = true := by
    rw [Document.blocks, List.mem_filter, Document.listing, preorderAll_eq_flatMap,
      preorderAll_eq_flatMap, ((hperm.flatMap_right _).map _).mem_iff]
  intro v hv
  have hvisit : v ∈ visitsAll 0 none forest := by
    rw [Document.visits, visitsAll_eq_flatMap] at hv
    rw [visitsAll_eq_flatMap]
    exact (hperm.flatMap_right _).mem_iff.mp hv
  have hparent := hdoc.blocks.parents isBlock_of_topKinds horder.names 0 none v hvisit
  refine ⟨hcolumns _ (mem_preorderAll_of_visit hvisit), ?_, ?_⟩
  · intro hname
    rcases hparent with ⟨hblock, -⟩ | ⟨p, hp, -, hline⟩
    · rw [hname] at hblock
      cases hblock
    · exact ⟨p, hp, hline hname⟩
  · intro hline hdepth
    rcases parent_of_visit hvisit with ⟨htop, -⟩ | ⟨depth, p, before, between, after, -, hp, hpre,
      hdeeper⟩
    · exact absurd htop hdepth
    · rcases hparent with ⟨-, hnone⟩ | ⟨q, hq, hblock, -⟩
      · rw [hp] at hnone
        cases hnone
      · obtain rfl : p = q := Option.some.inj (hp.symm.trans hq)
        exact ⟨p, hp, isLastBefore_of_preorder hwidth.1 hblocks hpre hlines hcolumns hdeeper hblock
          hline⟩

/-- Two contexts at the same depth, each with a text. -/
def siblingSample : String := "Context: Plan\n  a\n  Context:\n    b\n  Context:\n    c\n"

/-- The second text of the sample stands below the second of the two contexts. -/
theorem parseText_depth_siblingSample :
    PlainWidth 2 ∧ Undirected siblingSample ∧
      ∃ d, parseText {} 2 [] "plan" siblingSample = .ok d ∧
        (⟨.context, "", 3, 3, .line⟩ : Content) ∈ d.blocks ∧
        d.IsLastBefore 2 ⟨.context, "", 5, 3, .line⟩ ⟨.text, "c", 6, 5, .line⟩ := by
  have hwidth : PlainWidth 2 := ⟨by decide, by decide⟩
  have hplain : Undirected siblingSample := by decide +kernel
  have hbuild : (Builder.build ((content 2 "plan" siblingSample).map .token)
      (.finished (Token.endOfFile "plan"
        ((Text.lines siblingSample.toList).length + 1)))).toOption.map
          (fun d => decide (⟨.context, "", 3, 3, .line⟩ ∈ d.blocks ∧
            ⟨2, some ⟨.context, "", 5, 3, .line⟩, ⟨.text, "c", 6, 5, .line⟩⟩ ∈ d.visits)) =
      some true := by
    decide +kernel
  rw [← parseText_eq_build hplain {} 2 [] "plan"] at hbuild
  refine ⟨hwidth, hplain, ?_⟩
  cases hparse : parseText {} 2 [] "plan" siblingSample with
  | error problems =>
    rw [hparse] at hbuild
    cases hbuild
  | ok d =>
    rw [hparse] at hbuild
    obtain ⟨hblock, hvisit⟩ := of_decide_eq_true (Option.some.inj hbuild)
    obtain ⟨p, hp, hlast⟩ :=
      (parseText_depth_eq_indentation hwidth hplain hparse _ hvisit).2.2 rfl (by decide)
    cases hp
    exact ⟨d, rfl, hblock, hlast⟩

end Compile

end PromptOutline
