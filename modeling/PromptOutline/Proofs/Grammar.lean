import PromptOutline.Document.Tree
import PromptOutline.Proofs.Neighbours

/-!
# The grammar of outlines

    document := block*                               each kind of block at most once
    block    := keyword [name] indent body outdent
    body     := text*                                in a role or an action
              | text* block*                         in a context, where the blocks are contexts

`Blocks` relates the tokens of neighbouring blocks to their trees. The tokens of an outline may lack
outdents at their end, because the end of the input closes every block: `Derivable` adds them.
-/

namespace PromptOutline.Grammar

/-- The node of a token, with nothing below it. -/
def leaf (t : Token) : Tree := .node (.ofToken t) []

/-- The kinds of blocks at the top. -/
def topKinds : List TokenKind := [.role, .context, .action]

/-- The kinds of blocks inside a block: only contexts nest, and only in contexts. -/
def nestedKinds (k : TokenKind) : List TokenKind := if k = .context then [.context] else []

/-- The tokens of a block. -/
def blockTokens (keyword : Token) (name? : Option Token) (indent : Token)
    (texts inner : List Token) (outdent : Token) : List Token :=
  keyword :: (name?.toList ++ indent :: (texts ++ (inner ++ [outdent])))

/-- The tree of a block: below the keyword are its name, its texts and the blocks nested in it. -/
def blockTree (keyword : Token) (name? : Option Token) (texts : List Token) (nested : List Tree) :
    Tree :=
  .node (.ofToken keyword) (name?.toList.map leaf ++ (texts.map leaf ++ nested))

/-- `Blocks kinds ts forest`: the tokens `ts` are blocks of these kinds, and `forest` are their
trees, in order. -/
inductive Blocks : List TokenKind → List Token → List Tree → Prop where
  | nil {kinds : List TokenKind} : Blocks kinds [] []
  | cons {kinds : List TokenKind} {keyword indent outdent : Token} {name? : Option Token}
      {texts inner rest : List Token} {nested others : List Tree}
      (hkeyword : keyword.kind ∈ kinds) (hname : ∀ t ∈ name?, t.kind = .keywordText)
      (hindent : indent.kind = .indent) (htexts : ∀ t ∈ texts, t.kind = .text)
      (hinner : Blocks (nestedKinds keyword.kind) inner nested)
      (houtdent : outdent.kind = .outdent) (hrest : Blocks kinds rest others) :
      Blocks kinds (blockTokens keyword name? indent texts inner outdent ++ rest)
        (blockTree keyword name? texts nested :: others)

/-- The tokens of a whole document and the trees of its sections, in the order of the tokens. -/
structure IsDocument (ts : List Token) (forest : List Tree) : Prop where
  blocks : Blocks topKinds ts forest
  distinct : (forest.map (·.content.kind)).Nodup

/-- Tokens that are a document once enough outdents follow them. -/
def Derivable (ts : List Token) : Prop :=
  ∃ closing forest, (∀ t ∈ closing, t.kind = .outdent) ∧ IsDocument (ts ++ closing) forest

/-! ### Kinds -/

/-- A block is of the kind of its keyword. -/
@[simp] theorem kind_blockTree (keyword : Token) (name? : Option Token) (texts : List Token)
    (nested : List Tree) : (blockTree keyword name? texts nested).content.kind = keyword.kind := rfl

/-- The tree of a block in terms of what its nodes hold. -/
theorem blockTree_eq (keyword : Token) (name? : Option Token) (texts : List Token)
    (nested : List Tree) :
    blockTree keyword name? texts nested = .node (.ofToken keyword)
      ((name?.map Content.ofToken).toList.map (.node · []) ++
        ((texts.map Content.ofToken).map (.node · []) ++ nested)) := by
  cases name? <;> simp [blockTree, leaf]

/-- At the top of an outline stand the kinds of blocks. -/
theorem mem_topKinds_iff (k : TokenKind) : k ∈ topKinds ↔ k.isBlock = true := by
  cases k <;> decide

/-- In a block only a context can be nested, and only in a context. -/
theorem mem_nestedKinds_iff {k outer : TokenKind} :
    k ∈ nestedKinds outer ↔ k = .context ∧ outer = .context := by
  unfold nestedKinds
  split <;> simp_all

/-- What may stand at the top is a block. -/
theorem isBlock_of_topKinds : ∀ k ∈ topKinds, k.isBlock = true :=
  fun k hm => (mem_topKinds_iff k).mp hm

/-- What may stand nested in a block is a block. -/
theorem isBlock_of_nestedKinds (outer : TokenKind) : ∀ k ∈ nestedKinds outer, k.isBlock = true := by
  intro k hm
  rw [(mem_nestedKinds_iff.mp hm).1]
  rfl

/-- The trees of blocks are of the same kinds. -/
theorem Blocks.kinds_of_trees {kinds : List TokenKind} {ts : List Token} {forest : List Tree}
    (h : Blocks kinds ts forest) : ∀ t ∈ forest, t.content.kind ∈ kinds := by
  induction h with
  | nil => simp
  | cons hkeyword _ _ _ _ _ _ _ ihrest =>
    intro t ht
    rcases List.mem_cons.mp ht with rfl | ht
    · exact hkeyword
    · exact ihrest t ht

/-- The trees of a document are blocks. -/
theorem IsDocument.isBlock {ts : List Token} {forest : List Tree} (h : IsDocument ts forest) :
    ∀ t ∈ forest, t.content.kind.isBlock = true :=
  fun t ht => isBlock_of_topKinds _ (h.blocks.kinds_of_trees t ht)

/-- Blocks start with a keyword. -/
theorem Blocks.kind_of_head {kinds : List TokenKind} {ts : List Token} {forest : List Tree}
    (h : Blocks kinds ts forest) : ∀ t ∈ ts.head?, t.kind ∈ kinds := by
  cases h with
  | nil => simp
  | cons hkeyword =>
    rintro t ⟨⟩
    exact hkeyword

/-- Every token of a derivation is a keyword, a name, a text or a change of level. -/
theorem Blocks.kinds_of_mem {kinds : List TokenKind} {ts : List Token} {forest : List Tree}
    (h : Blocks kinds ts forest) (hk : ∀ k ∈ kinds, k.isBlock = true) :
    ∀ t ∈ ts, t.kind.isBlock = true ∨ t.kind ∈ [.keywordText, .indent, .text, .outdent] := by
  induction h with
  | nil => intro t ht; cases ht
  | cons hkeyword hname hindent htexts hinner houtdent hrest ihinner ihrest =>
    intro t ht
    simp only [blockTokens, List.cons_append, List.append_assoc, List.mem_cons, List.mem_append,
      Option.mem_toList, List.not_mem_nil, false_or] at ht
    rcases ht with rfl | ht | rfl | ht | ht | rfl | ht
    · exact .inl (hk _ hkeyword)
    · simp [hname t ht]
    · simp [hindent]
    · simp [htexts t ht]
    · exact ihinner (isBlock_of_nestedKinds _) t ht
    · simp [houtdent]
    · exact ihrest hk t ht

/-! ### Levels -/

/-- The level after tokens, from level `k` on: an indent raises it and an outdent lowers it. There
is none after an outdent at level zero. -/
def level? (k : Nat) : List Token → Option Nat
  | [] => some k
  | t :: ts =>
    if t.kind = .indent then level? (k + 1) ts
    else if t.kind = .outdent then if k = 0 then none else level? (k - 1) ts
    else level? k ts

/-- The level behind two lists of tokens is the one behind the second, counted from the first. -/
theorem level?_append (k : Nat) (ts us : List Token) :
    level? k (ts ++ us) = (level? k ts).bind (level? · us) := by
  induction ts generalizing k with
  | nil => rfl
  | cons t ts ih =>
    simp only [List.cons_append, level?]
    split
    · exact ih (k + 1)
    · split
      · split
        · rfl
        · exact ih (k - 1)
      · exact ih k

/-- Tokens that are no marks keep the level. -/
theorem level?_of_flat {ts : List Token}
    (h : ∀ t ∈ ts, t.kind ≠ .indent ∧ t.kind ≠ .outdent) (k : Nat) : level? k ts = some k := by
  induction ts with
  | nil => rfl
  | cons t ts ih =>
    obtain ⟨hi, ho⟩ := h t (by simp)
    rw [level?, if_neg hi, if_neg ho]
    exact ih fun u hu => h u (by simp [hu])

/-- Each indentation goes one level down. -/
theorem level?_of_indents {ts : List Token} (h : ∀ t ∈ ts, t.kind = .indent) (k : Nat) :
    level? k ts = some (k + ts.length) := by
  induction ts generalizing k with
  | nil => rfl
  | cons t ts ih =>
    rw [level?, if_pos (h t (by simp)), ih fun u hu => h u (by simp [hu]), List.length_cons]
    congr 1
    omega

/-- Each outdentation goes one level up. -/
theorem level?_of_outdents {ts : List Token} (h : ∀ t ∈ ts, t.kind = .outdent) (k : Nat) :
    level? (k + ts.length) ts = some k := by
  induction ts with
  | nil => rfl
  | cons t ts ih =>
    rw [level?, if_neg (by simp [h t]), if_pos (h t (by simp)), List.length_cons,
      if_neg (by omega), Nat.add_succ_sub_one, ih fun u hu => h u (by simp [hu])]

/-- The heading of a block keeps the level. -/
theorem level?_head {keyword : Token} {name? : Option Token}
    (hkeyword : keyword.kind.isBlock = true) (hname : ∀ t ∈ name?, t.kind = .keywordText)
    (k : Nat) : level? k (keyword :: name?.toList) = some k := by
  apply level?_of_flat
  intro t ht
  simp only [List.mem_cons, Option.mem_toList] at ht
  rcases ht with rfl | ht
  · constructor <;> intro he <;> rw [he] at hkeyword <;> cases hkeyword
  · simp [hname t ht]

/-- Texts keep the level. -/
theorem level?_texts {texts : List Token} (htexts : ∀ t ∈ texts, t.kind = .text) (k : Nat) :
    level? k texts = some k :=
  level?_of_flat (fun t ht => by simp [htexts t ht]) k

/-- A block ends at the level where it starts. -/
theorem level?_block {keyword indent outdent : Token} {name? : Option Token}
    {texts inner : List Token} (hkeyword : keyword.kind.isBlock = true)
    (hname : ∀ t ∈ name?, t.kind = .keywordText) (hindent : indent.kind = .indent)
    (htexts : ∀ t ∈ texts, t.kind = .text) (houtdent : outdent.kind = .outdent) (k : Nat)
    (hinner : level? (k + 1) inner = some (k + 1)) :
    level? k (blockTokens keyword name? indent texts inner outdent) = some k := by
  rw [blockTokens, ← List.cons_append, level?_append, level?_head hkeyword hname, Option.bind_some,
    level?, if_pos hindent, level?_append, level?_texts htexts, Option.bind_some, level?_append,
    hinner, Option.bind_some]
  simp [level?, houtdent]

/-- Blocks end at the level they start at. -/
theorem Blocks.level?_eq {kinds : List TokenKind} {ts : List Token} {forest : List Tree}
    (h : Blocks kinds ts forest) (hk : ∀ k ∈ kinds, k.isBlock = true) (k : Nat) :
    level? k ts = some k := by
  induction h generalizing k with
  | nil => rfl
  | cons hkeyword hname hindent htexts hinner houtdent hrest ihinner ihrest =>
    have hblock := level?_block (hk _ hkeyword) hname hindent htexts houtdent k
      (ihinner (isBlock_of_nestedKinds _) (k + 1))
    rw [level?_append, hblock, Option.bind_some, ihrest hk k]

/-! ### Tokens out of place -/

/-- Whether an indent may follow a token. -/
def OpensBody (t : Token) : Prop := t.kind.isBlock = true ∨ t.kind = .keywordText

private theorem opensBody_getLast {keyword t : Token} {name? : Option Token}
    (hkeyword : keyword.kind.isBlock = true) (hname : ∀ t ∈ name?, t.kind = .keywordText)
    (ht : t ∈ (keyword :: name?.toList).getLast?) : OpensBody t := by
  cases name? with
  | none =>
    simp only [Option.toList_none, List.getLast?_singleton, Option.mem_some_iff] at ht
    exact .inl (ht ▸ hkeyword)
  | some name =>
    simp only [Option.toList_some, List.getLast?_cons_cons, List.getLast?_singleton,
      Option.mem_some_iff] at ht
    exact .inr (ht ▸ hname name rfl)

/-- In blocks, an indent stands only behind a keyword or a name. -/
theorem Blocks.guarded {kinds : List TokenKind} {ts : List Token} {forest : List Tree}
    (h : Blocks kinds ts forest) (hk : ∀ k ∈ kinds, k.isBlock = true) :
    Guarded (·.kind = .indent) OpensBody ts := by
  induction h with
  | nil => exact .nil
  | @cons kinds keyword indent outdent name? texts inner rest nested others
      hkeyword hname hindent htexts hinner houtdent hrest ihinner ihrest =>
    have hblock : keyword.kind.isBlock = true := hk _ hkeyword
    have hbody :
        Guarded (·.kind = .indent) OpensBody (texts ++ (inner ++ ([outdent] ++ rest))) := by
      refine (Guarded.of_forall fun t ht => by simp [htexts t ht]).append ?_
      refine (ihinner (isBlock_of_nestedKinds _)).append ?_
      exact (Guarded.of_forall fun t ht => by simp_all).append (ihrest hk)
    have hhead : Guarded (·.kind = .indent) OpensBody (keyword :: name?.toList) := by
      apply Guarded.of_forall
      intro t ht
      simp only [List.mem_cons, Option.mem_toList] at ht
      rcases ht with rfl | ht
      · intro he
        rw [he] at hblock
        cases hblock
      · simp [hname t ht]
    have heq : blockTokens keyword name? indent texts inner outdent ++ rest =
        (keyword :: name?.toList) ++ indent :: (texts ++ (inner ++ ([outdent] ++ rest))) := by
      simp [blockTokens]
    rw [heq]
    exact hhead.append_cons (by simp) (fun a ha => opensBody_getLast hblock hname ha) hbody

/-- A token that has no place behind the tokens before it: the mark of a bad line, an indent that no
block opens with, or an outdent that closes no block. -/
def Stray (before : List Token) (t : Token) : Prop :=
  t.kind ∈ [.badIndent, .badOutdent, .tab] ∨
    (t.kind = .indent ∧ ∀ a ∈ before.getLast?, ¬ OpensBody a) ∨
    (t.kind = .outdent ∧ level? 0 before = some 0)

/-- Blocks hold no stray token. -/
theorem Blocks.not_stray {before rest : List Token} {t : Token} {forest : List Tree}
    (h : Blocks topKinds (before ++ t :: rest) forest) : ¬ Stray before t := by
  rintro (hbad | ⟨hindent, hlast⟩ | ⟨houtdent, hlevel⟩)
  · have hkind := h.kinds_of_mem isBlock_of_topKinds t (by simp)
    simp only [List.mem_cons, List.not_mem_nil, or_false] at hbad hkind
    rcases hbad with he | he | he <;> simp [he, TokenKind.isBlock] at hkind
  · obtain ⟨a, ha, hopens⟩ := (h.guarded isBlock_of_topKinds).host hindent
    exact hlast a ha hopens
  · have hall := h.level?_eq isBlock_of_topKinds 0
    rw [level?_append, hlevel] at hall
    simp [level?, houtdent] at hall

/-- Tokens with a stray one among them are no document, whatever closes them. -/
theorem not_derivable_of_stray {before rest : List Token} {t : Token} (h : Stray before t) :
    ¬ Derivable (before ++ t :: rest) := by
  rintro ⟨closing, forest, -, hdoc⟩
  have hblocks := hdoc.blocks
  rw [List.append_assoc, List.cons_append] at hblocks
  exact hblocks.not_stray h

end PromptOutline.Grammar
