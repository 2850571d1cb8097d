import Mathlib.Algebra.Group.Nat.Even
import Mathlib.Data.List.DropRight
import PromptOutline.Proofs.Collecting
import PromptOutline.Proofs.Depth
import PromptOutline.Proofs.JoinedRows
import PromptOutline.Proofs.Rounds
import PromptOutline.Proofs.Segments
import PromptOutline.Proofs.Splicing

/-!
# Embedded files in a document

An embedded file reaches the document as text lines: one that names the file, an opening fence, the
lines of the file and a closing fence. Whether these lines become one fenced region is decided
later, by a walk that looks at lines only. It does, unless a fence was open before the directive or
a line of the file starts with a fence itself. The latter closes the region early, and what is left
of the file is gathered with whatever stands behind it.
-/

namespace PromptOutline

private theorem Text.joinWith_cons (sep first : String) (rest : List String) :
    joinWith sep (first :: rest) = rest.foldl (fun value line => value ++ sep ++ line) first := by
  induction rest generalizing first with
  | nil => exact String.intercalate_singleton
  | cons line rest ih =>
    rw [List.foldl_cons, ← ih, joinWith, joinWith, String.intercalate_cons_cons,
      String.intercalate_cons_append]

/-! ### What an embedded file becomes -/

/-- The region that holds an embedded file: an opening fence with the language of the file, its
lines and a closing fence. -/
def listing (f : SourceFile) : Tree :=
  .node
    { kind := .text,
      value := Text.joinWith "\n" ((Embedding.fence ++ Embedding.language f.name) ::
        ((Text.lines f.contents.toList).map String.ofList ++ [Embedding.fence])),
      line := 1, column := 1, form := .fenced } []

/-- A text whose last line names a file. -/
structure IsHeading (f : SourceFile) (t : Tree) : Prop where
  kind : t.content.kind = .text
  lastLine : t.content.value = "File: " ++ f.name ∨
    ∃ earlier, t.content.value = earlier ++ "\n" ++ ("File: " ++ f.name)

/-- A heading and a listing for each of some files, in order. -/
inductive Lists : List SourceFile → List Tree → Prop where
  | nil : Lists [] []
  | cons {f : SourceFile} {files : List SourceFile} {heading : Tree} {ts : List Tree}
      (hheading : IsHeading f heading) (hrest : Lists files ts) :
      Lists (f :: files) (heading :: listing f :: ts)

/-- A file of which no line starts with a fence. -/
def SourceFile.Unfenced (f : SourceFile) : Prop :=
  ∀ line ∈ Text.lines f.contents.toList, Document.isFence (String.ofList line) = false

namespace Document

private theorem isFence_fence (s : String) : isFence (Embedding.fence ++ s) = true := by
  have hlist : (Embedding.fence ++ s).toList = '\x60' :: '\x60' :: '\x60' :: s.toList := by
    rw [String.toList_append]
    rfl
  have htrim (cs : List Char) : Text.trimStart ('\x60' :: cs) = '\x60' :: cs :=
    List.dropWhile_cons_of_neg (by decide)
  rw [isFence, hlist, htrim]
  exact List.isPrefixOf_iff_prefix.mpr ⟨s.toList, rfl⟩

private theorem isFence_heading (s : String) : isFence ("File: " ++ s) = false := by
  have hlist : ("File: " ++ s).toList = 'F' :: ("ile: ".toList ++ s.toList) := by
    rw [String.toList_append]
    rfl
  have htrim (cs : List Char) : Text.trimStart ('F' :: cs) = 'F' :: cs :=
    List.dropWhile_cons_of_neg (by decide)
  rw [isFence, hlist, htrim]
  rfl

end Document

namespace Tree

open Document Grammar

private theorem foldl_addLine (lines : List String) (c : Content) (cs : List Tree) :
    lines.foldl (fun t line => t.addLine line) (node c cs) =
      node { c with value := Text.joinWith "\n" (c.value :: lines) } cs := by
  rw [Text.joinWith_cons]
  induction lines generalizing c with
  | nil => rfl
  | cons line lines ih => exact ih _

/-! ### Fences along a walk -/

namespace Gathering

/-- Whether a fenced region takes the next line. -/
def inFence (g : Gathering) : Bool :=
  match g.target with
  | .fenced _ => true
  | _ => false

private theorem inFence_of_ne {g : Gathering} (h : ∀ u, g.target ≠ .fenced u) :
    g.inFence = false := by
  unfold inFence
  split
  · next u hu => exact absurd hu (h u)
  · rfl

/-- A line that starts with a fence opens a region or closes it, and other lines do neither. -/
theorem inFence_step (g : Gathering) {t : Tree} (ht : t.isLine = true) :
    (g.step t).inFence = (g.inFence ^^ isFence t.content.value) := by
  have hstep := steps_step g t
  generalize g.step t = r at hstep
  cases hstep with
  | kept hline => simp [ht] at hline
  | dropped _ hempty hopen =>
    rw [inFence_of_ne hopen, isFence_of_isEmpty hempty]
    rfl
  | openFence _ _ hfence hopen =>
    rw [inFence_of_ne hopen, hfence]
    rfl
  | openParagraph _ _ hfence hclosed => simp [inFence, hclosed, hfence]
  | joinParagraph _ _ hfence hopen => simp [inFence, hopen, hfence]
  | joinFence _ hfence hopen => simp [inFence, hopen, hfence]
  | closeFence _ hfence hopen => simp [inFence, hopen, hfence]

/-- An even number of fences leaves no region open. -/
theorem inFence_foldl {ts : List Tree} (hts : ∀ t ∈ ts, t.isLine = true) (g : Gathering) :
    (ts.foldl step g).inFence =
      (g.inFence ^^ !decide (Even (ts.countP fun t => isFence t.content.value))) := by
  induction ts generalizing g with
  | nil => simp
  | cons t ts ih =>
    rw [List.foldl_cons, ih (fun u hu => hts u (by simp [hu])), inFence_step g (hts t (by simp)),
      List.countP_cons]
    cases isFence t.content.value with
    | false => simp
    | true =>
      have hflip (n : Nat) : decide (Even (n + 1)) = !decide (Even n) := by
        simp only [Nat.even_add_one, decide_not]
      rw [if_pos rfl, hflip]
      cases g.inFence <;> simp only [Bool.xor_true, Bool.not_true, Bool.not_false, Bool.not_not,
        Bool.true_xor, Bool.false_xor]

private theorem OpenText.foldl {g : Gathering} (hg : g.OpenText) (ts : List Tree) :
    (ts.foldl Gathering.step g).OpenText := by
  induction ts generalizing g with
  | nil => exact hg
  | cons t ts ih => exact ih (hg.step t)

/-! ### The walk over embedded files -/

private theorem isLine_textToken (fileName rawLine text : String) (line : Nat) :
    (leaf (Embedding.textToken fileName rawLine text line)).isLine = true := rfl

private theorem value_textToken (fileName rawLine text : String) (line : Nat) :
    (leaf (Embedding.textToken fileName rawLine text line)).content.value = text := rfl

/-- Where no region is open, the line that names a file joins the paragraph before it or starts
one. -/
theorem step_heading {g : Gathering} (hfence : g.inFence = false) (hopen : g.OpenText)
    (f : SourceFile) :
    ∃ heading, IsHeading f heading ∧
      g.step (leaf (Embedding.textToken f.name "" ("File: " ++ f.name) 1)) =
        { done := g.done, target := .paragraph heading } := by
  have hne : ("File: " ++ f.name).isEmpty = false := by
    rw [Bool.eq_false_iff, ne_eq, String.isEmpty_iff, ← String.toList_inj, String.toList_append]
    simp
  obtain ⟨done, target⟩ := g
  cases target with
  | fenced u => cases hfence
  | closed =>
    refine ⟨.withForm .paragraph (leaf (Embedding.textToken f.name "" ("File: " ++ f.name) 1)),
      ⟨rfl, .inl rfl⟩, ?_⟩
    simp [step, isLine_textToken, value_textToken, hne, isFence_heading, kept, Target.toList]
  | paragraph u =>
    refine ⟨u.addLine ("File: " ++ f.name), ⟨?_, .inr ⟨u.content.value, ?_⟩⟩, ?_⟩
    · rw [kind_addLine]
      exact hopen u (by simp [Target.toList])
    · cases u
      rfl
    · simp [step, isLine_textToken, value_textToken, hne, isFence_heading]

private theorem step_fence (done : List Tree) (heading : Tree) (fileName : String) :
    step { done, target := .paragraph heading }
        (leaf (Embedding.textToken fileName ""
          (Embedding.fence ++ Embedding.language fileName) 1)) =
      { done := done ++ [heading],
        target := .fenced (withForm .fenced (leaf (Embedding.textToken fileName ""
          (Embedding.fence ++ Embedding.language fileName) 1))) } := by
  have hne : (Embedding.fence ++ Embedding.language fileName).isEmpty = false := by
    rw [Bool.eq_false_iff, ne_eq, String.isEmpty_iff, ← String.toList_inj, String.toList_append]
    simp [Embedding.fence]
  simp [step, isLine_textToken, value_textToken, hne, isFence_fence, kept, Target.toList]

/-- An open region takes the lines of a file as they are, as long as none starts with a fence. -/
theorem foldl_lineTokens {done : List Tree} {region : Tree} {fileName : String}
    {number : Nat} {lines : List (List Char)}
    (hplain : ∀ line ∈ lines, isFence (String.ofList line) = false) :
    ((Embedding.lineTokens fileName number lines).map leaf).foldl step
        { done, target := .fenced region } =
      { done
        target := .fenced ((lines.map String.ofList).foldl (fun t l => t.addLine l) region) } :=
    by
  induction lines generalizing number region with
  | nil => rfl
  | cons line lines ih =>
    have hstep : step { done, target := .fenced region }
        (leaf (Embedding.textToken fileName (String.ofList line) (String.ofList line) number)) =
        { done, target := .fenced (region.addLine (String.ofList line)) } := by
      simp [step, isLine_textToken, value_textToken, hplain line]
    rw [Embedding.lineTokens, List.map_cons, List.foldl_cons, hstep,
      ih fun l hl => hplain l (by simp [hl])]
    rfl

/-- An embedded file becomes a heading and a listing. -/
theorem foldl_content {g : Gathering} {f : SourceFile} (hfence : g.inFence = false)
    (hopen : g.OpenText) (hplain : f.Unfenced) :
    ∃ heading, IsHeading f heading ∧
      ((Embedding.content f.name f.contents).map leaf).foldl step g =
        { done := g.done ++ [heading, listing f] } := by
  obtain ⟨heading, hheading, hstep⟩ := step_heading hfence hopen f
  refine ⟨heading, hheading, ?_⟩
  have hclose (done : List Tree) (region : Tree) (line : Nat) :
      step { done, target := .fenced region }
          (leaf (Embedding.textToken f.name "" Embedding.fence line)) =
        { done := done ++ [region.addLine Embedding.fence] } := by
    have h : isFence Embedding.fence = true := by decide
    simp [step, isLine_textToken, value_textToken, h]
  have hlisting (lines : List String) :
      (lines.foldl (fun t l => t.addLine l) (withForm .fenced (leaf (Embedding.textToken f.name ""
        (Embedding.fence ++ Embedding.language f.name) 1)))).addLine Embedding.fence =
      .node
        { kind := .text,
          value := Text.joinWith "\n" ((Embedding.fence ++ Embedding.language f.name) ::
            (lines ++ [Embedding.fence])),
          line := 1, column := 1, form := .fenced } [] := by
    have hfold := foldl_addLine (lines ++ [Embedding.fence])
      { kind := .text, value := Embedding.fence ++ Embedding.language f.name, line := 1,
        column := 1, form := .fenced } []
    rw [List.foldl_append] at hfold
    exact hfold
  rw [Embedding.content, List.map_cons, List.map_cons, List.map_append, List.foldl_cons, hstep,
    List.foldl_cons, step_fence, List.foldl_append, foldl_lineTokens hplain, List.map_singleton,
    List.foldl_cons, hclose, List.foldl_nil, hlisting, List.append_assoc]
  rfl

/-- Embedded files become headings and listings, in order. -/
theorem foldl_contents {g : Gathering} {f : SourceFile} {files : List SourceFile}
    (hfence : g.inFence = false) (hopen : g.OpenText) (hplain : ∀ f' ∈ f :: files, f'.Unfenced) :
    ∃ ts, Lists (f :: files) ts ∧
      (((f :: files).flatMap fun f => Embedding.content f.name f.contents).map leaf).foldl step g =
        { done := g.done ++ ts } := by
  induction files generalizing g f with
  | nil =>
    obtain ⟨heading, hheading, hfold⟩ := foldl_content hfence hopen (hplain f (by simp))
    exact ⟨_, .cons hheading .nil, by simpa using hfold⟩
  | cons f' files ih =>
    obtain ⟨heading, hheading, hfold⟩ := foldl_content hfence hopen (hplain f (by simp))
    obtain ⟨ts, hts, hrest⟩ := ih (g := { done := g.done ++ [heading, listing f] }) (f := f') rfl
      (by simp [OpenText, Target.toList]) fun x hx => hplain x (by simp_all)
    refine ⟨_, .cons hheading hts, ?_⟩
    rw [List.flatMap_cons, List.map_append, List.foldl_append, hfold, hrest]
    simp

end Gathering

/-! ### Blocks behind joining -/

/-- `Nested t ts`: the tree `t` is one of the trees `ts` or stands below one that is no text. -/
inductive Nested (t : Tree) : List Tree → Prop where
  | here {ts : List Tree} (hmem : t ∈ ts) : Nested t ts
  | inside {ts : List Tree} {u : Tree} (hmem : u ∈ ts) (htext : u.content.isText = false)
      (hinside : Nested t u.children) : Nested t ts

private theorem Nested.mono {t : Tree} {ts us : List Tree} (h : Nested t ts) (hsub : ts ⊆ us) :
    Nested t us := by
  cases h with
  | here hmem => exact .here (hsub hmem)
  | inside hmem htext hinside => exact .inside (hsub hmem) htext hinside

/-- The contents from the top down hold what stands directly below a tree among the trees. -/
theorem Nested.mem_preorderAll {t u : Tree} {ts : List Tree} (h : Nested t ts) (depth : Nat)
    (hu : u ∈ t.children) : u.content ∈ (preorderAll depth ts).map (·.2) := by
  have hbelow {v : Tree} {vs : List Tree} (hv : v ∈ vs) (k : Nat) {c : Content}
      (hc : c ∈ (preorder k v).map (·.2)) : c ∈ (preorderAll k vs).map (·.2) := by
    rw [preorderAll_eq_flatMap, List.map_flatMap]
    exact List.mem_flatMap.mpr ⟨v, hv, hc⟩
  have hself (v : Tree) (k : Nat) : v.content ∈ (preorder k v).map (·.2) := by
    cases v
    simp [preorder, content]
  have hchild {v : Tree} {k : Nat} {c : Content}
      (hc : c ∈ (preorderAll (k + 1) v.children).map (·.2)) : c ∈ (preorder k v).map (·.2) := by
    cases v
    exact List.mem_cons_of_mem _ hc
  induction h generalizing depth with
  | here hmem => exact hbelow hmem depth (hchild (hbelow hu _ (hself u _)))
  | inside hmem _ _ ih => exact hbelow hmem depth (hchild (ih (depth + 1)))

/-- A tree that is no line is kept. -/
theorem mem_gather_of_not_isLine {t : Tree} {ts : List Tree} (hmem : t ∈ ts)
    (ht : t.isLine = false) : t ∈ gather ts := by
  obtain ⟨before, after, rfl⟩ := List.append_of_mem hmem
  have hfold : (before ++ [t]).foldl Gathering.step {} =
      { done := (before.foldl Gathering.step {}).kept ++ [t] } := by
    rw [List.foldl_append]
    simp [Gathering.step, ht]
  rw [← List.singleton_append, ← List.append_assoc, gather_append hfold]
  simp

private theorem joinedBelow_append (ts us : List Tree) :
    joinedBelow (ts ++ us) = joinedBelow ts ++ joinedBelow us := by
  simp only [joinedBelow_eq_map, List.map_append]

private theorem children_joined (t : Tree) :
    t.joined.children = gather (joinedBelow t.children) := by
  cases t
  rfl

private theorem mem_gather_joinedBelow {t : Tree} {ts : List Tree} (hmem : t ∈ ts)
    (ht : t.content.isText = false) : t.joined ∈ gather (joinedBelow ts) := by
  refine mem_gather_of_not_isLine ?_ (by simp [isLine, ht])
  rw [joinedBelow_eq_map]
  exact List.mem_map.mpr ⟨t, hmem, by simp [ht]⟩

/-- What stands among trees, stands joined among joined trees. -/
theorem Nested.joined {t : Tree} {ts : List Tree} (h : Nested t ts)
    (ht : t.content.isText = false) :
    Nested t.joined (ts.map Tree.joined) ∧ Nested t.joined (gather (joinedBelow ts)) := by
  induction h with
  | here hmem => exact ⟨.here (List.mem_map_of_mem hmem), .here (mem_gather_joinedBelow hmem ht)⟩
  | @inside ts u hmem htext _ ih =>
    have hinside : Nested t.joined u.joined.children := by
      rw [children_joined]
      exact ih.2
    have htext' : u.joined.content.isText = false := by rw [content_joined, htext]
    exact ⟨.inside (List.mem_map_of_mem hmem) htext' hinside,
      .inside (mem_gather_joinedBelow hmem htext) htext' hinside⟩

end Tree

namespace Grammar

open Document PromptOutline.Tree

private theorem children_joined_blockTree {keyword : Token} {name? : Option Token}
    {texts : List Token}
    {nested : List Tree} (hname : ∀ t ∈ name?, t.kind = .keywordText)
    (htexts : ∀ t ∈ texts, t.kind = .text) :
    (blockTree keyword name? texts nested).joined.children =
      gather (name?.toList.map leaf ++ (texts.map leaf ++ joinedBelow nested)) := by
  have hnames : joinedBelow (name?.toList.map leaf) = name?.toList.map leaf := by
    cases name? with
    | none => rfl
    | some name =>
      have hn : (leaf name).content.isText = false := by
        simp [leaf, Tree.content, Content.isText, Content.ofToken, hname name rfl]
      simp only [Option.toList_some, List.map_cons, List.map_nil, joinedBelow, hn,
        Bool.false_eq_true, if_false]
      rfl
  have hlines : joinedBelow (texts.map leaf) = texts.map leaf := by
    rw [joinedBelow_eq_map, List.map_map]
    refine List.map_congr_left fun t ht => ?_
    simp [leaf, Tree.content, Content.isText, Content.ofToken, htexts t ht]
  have hchildren : (blockTree keyword name? texts nested).children =
      name?.toList.map leaf ++ (texts.map leaf ++ nested) := rfl
  rw [children_joined, hchildren, joinedBelow_append, joinedBelow_append, hnames, hlines]

private theorem isLine_leaf {t : Token} (ht : t.kind = .text) : (leaf t).isLine = true := by
  simp [leaf, isLine, Tree.content, Content.isText, Content.ofToken, ht]

private theorem value_leaf {t : Token} (ht : t.kind = .text) : (leaf t).content.value = t.text := by
  simp [leaf, Tree.content, Content.ofToken, ht, TokenKind.isBlock]

/-- Behind texts with an even number of fences, embedded files become headings and listings among
what is below a block. -/
theorem children_of_embedding {keyword : Token} {name? : Option Token} {before after : List Token}
    {files : List SourceFile} {nested : List Tree} (hname : ∀ t ∈ name?, t.kind = .keywordText)
    (hbefore : ∀ t ∈ before, t.kind = .text) (hafter : ∀ t ∈ after, t.kind = .text)
    (hfence : Even (before.countP (isFence ·.text))) (hne : files ≠ [])
    (hplain : ∀ f ∈ files, f.Unfenced) :
    ∃ kept ts rest,
      (blockTree keyword name?
        (before ++ ((files.flatMap fun f => Embedding.content f.name f.contents) ++ after))
        nested).joined.children = kept ++ (ts ++ rest) ∧
      Lists files ts := by
  obtain ⟨f, files, rfl⟩ := List.exists_cons_of_ne_nil hne
  let embedded := (f :: files).flatMap fun f => Embedding.content f.name f.contents
  have hembedded : ∀ t ∈ embedded, t.kind = .text := by
    intro t ht
    obtain ⟨f', -, hf'⟩ := List.mem_flatMap.mp ht
    exact Embedding.kind_of_content hf'
  let named := (name?.toList.map leaf).foldl Gathering.step {}
  let g := (before.map leaf).foldl Gathering.step named
  have hnamed : named.inFence = false := by
    cases name? with
    | none => rfl
    | some name =>
      have hn : (leaf name).isLine = false := by
        simp [leaf, isLine, Tree.content, Content.isText, Content.ofToken, hname name rfl]
      simp [named, Gathering.step, hn, Gathering.inFence]
  have hclosed : g.inFence = false := by
    have hlines : ∀ t ∈ before.map leaf, t.isLine = true := by
      intro t ht
      obtain ⟨u, hu, rfl⟩ := List.mem_map.mp ht
      exact isLine_leaf (hbefore u hu)
    have hcount : (before.map leaf).countP (fun t => isFence t.content.value) =
        before.countP (isFence ·.text) := by
      rw [List.countP_map]
      exact List.countP_congr fun t ht => by simp [value_leaf (hbefore t ht)]
    rw [Gathering.inFence_foldl hlines, hnamed, hcount]
    simp [hfence]
  have hopen : g.OpenText := by
    have hstart : Gathering.OpenText {} := by simp [Gathering.OpenText, Target.toList]
    exact (hstart.foldl _).foldl _
  obtain ⟨ts, hts, hwalk⟩ := Gathering.foldl_contents hclosed hopen hplain
  have hfold : (name?.toList.map leaf ++ (before.map leaf ++ embedded.map leaf)).foldl
      Gathering.step {} = { done := g.done ++ ts } := by
    rw [List.foldl_append, List.foldl_append]
    exact hwalk
  refine ⟨g.done, ts, gather (after.map leaf ++ joinedBelow nested), ?_, hts⟩
  have hall : ∀ t ∈ before ++ (embedded ++ after), t.kind = .text := by
    intro t ht
    simp only [List.mem_append] at ht
    rcases ht with ht | ht | ht
    · exact hbefore t ht
    · exact hembedded t ht
    · exact hafter t ht
  have heq : name?.toList.map leaf ++
        ((before ++ (embedded ++ after)).map leaf ++ joinedBelow nested) =
      (name?.toList.map leaf ++ (before.map leaf ++ embedded.map leaf)) ++
        (after.map leaf ++ joinedBelow nested) := by
    simp
  rw [children_joined_blockTree hname hall, heq, gather_append hfold, List.append_assoc]

/-! ### The block around a text -/

/-- Where a text stands in a derivation: the tokens before it end with the head of its block and the
texts in front of it, and those after it start with the texts behind it. -/
inductive TextPlace (forest : List Tree) (t : Token) : List Token → List Token → Prop where
  | intro {front before after rest : List Token} {keyword indent : Token} {name? : Option Token}
      {nested : List Tree} (hkeyword : keyword.kind.isBlock = true)
      (hname : ∀ u ∈ name?, u.kind = .keywordText) (hindent : indent.kind = .indent)
      (hbefore : ∀ u ∈ before, u.kind = .text) (hafter : ∀ u ∈ after, u.kind = .text)
      (hrest : ∀ u ∈ rest.head?, u.kind ≠ .text)
      (hblock : Nested (blockTree keyword name? (before ++ t :: after) nested) forest) :
      TextPlace forest t (front ++ keyword :: (name?.toList ++ indent :: before)) (after ++ rest)

/-- More tokens around, and more trees. -/
theorem TextPlace.extend {forest forest' : List Tree} {t : Token} {pre post : List Token}
    (h : TextPlace forest t pre post) (front rest : List Token)
    (hrest : ∀ u ∈ rest.head?, u.kind ≠ .text)
    (hforest : ∀ b, Nested b forest → Nested b forest') :
    TextPlace forest' t (front ++ pre) (post ++ rest) := by
  obtain ⟨hkeyword, hname, hindent, hbefore, hafter, hinner, hblock⟩ := h
  rename_i inner _ _ _ _
  rw [List.append_assoc, ← List.append_assoc front]
  refine .intro hkeyword hname hindent hbefore hafter ?_ (hforest _ hblock)
  cases inner with
  | nil => exact hrest
  | cons u us => exact hinner

private theorem append_split {α : Type} {xs ys pre post : List α} {a : α}
    (h : xs ++ ys = pre ++ a :: post) :
    (∃ mid, xs = pre ++ a :: mid ∧ post = mid ++ ys) ∨
      ∃ mid, pre = xs ++ mid ∧ ys = mid ++ a :: post := by
  rcases List.append_eq_append_iff.mp h with ⟨mid, hpre, hys⟩ | ⟨mid, hxs, hmid⟩
  · exact .inr ⟨mid, hpre, hys⟩
  · cases mid with
    | nil => exact .inr ⟨[], by simpa using hxs.symm, by simpa using hmid.symm⟩
    | cons b mid =>
      obtain ⟨rfl, rfl⟩ := List.cons.inj hmid
      exact .inl ⟨mid, hxs, rfl⟩

private theorem nested_blockTree {keyword : Token} {nested others : List Tree} {b : Tree}
    (hblock : keyword.kind.isBlock = true) (name? : Option Token) (texts : List Token)
    (h : Nested b nested) : Nested b (blockTree keyword name? texts nested :: others) := by
  refine .inside List.mem_cons_self ?_ (h.mono ?_)
  · rw [Content.isText, kind_blockTree]
    cases hk : keyword.kind <;> simp_all [TokenKind.isBlock]
  · intro t ht
    exact List.mem_append_right _ (List.mem_append_right _ ht)

private theorem kind_of_isBlock {k : TokenKind} (h : k.isBlock = true) : k ≠ .text := by
  rintro rfl
  cases h

/-- Every text in a derivation stands in a block. -/
theorem Blocks.textPlace {kinds : List TokenKind} {ts : List Token} {forest : List Tree}
    (h : Blocks kinds ts forest) (hk : ∀ k ∈ kinds, k.isBlock = true) {pre post : List Token}
    {t : Token} (heq : ts = pre ++ t :: post) (ht : t.kind = .text) :
    TextPlace forest t pre post := by
  induction h generalizing pre post with
  | nil => simp at heq
  | @cons kinds keyword indent outdent name? texts inner rest nested others
      hkeyword hname hindent htexts hinner houtdent hrest ihinner ihrest =>
    have hblock : keyword.kind.isBlock = true := hk _ hkeyword
    have hclosing : ∀ u ∈ (outdent :: rest).head?, u.kind ≠ .text := by simp [houtdent]
    have hparts : (keyword :: (name?.toList ++ [indent])) ++
        (texts ++ (inner ++ (outdent :: rest))) = pre ++ t :: post := by
      rw [← heq, blockTokens]
      simp
    rcases append_split hparts with ⟨mid, hhead, -⟩ | ⟨mid, rfl, hbody⟩
    · -- no token of the head is a text
      have hmem : t ∈ keyword :: (name?.toList ++ [indent]) := by simp [hhead]
      simp only [List.mem_cons, List.mem_append, Option.mem_toList, List.not_mem_nil,
        or_false] at hmem
      rcases hmem with rfl | hmem | rfl
      · exact absurd ht (kind_of_isBlock hblock)
      · simp [hname t hmem] at ht
      · simp [hindent] at ht
    rcases append_split hbody with ⟨after, rfl, rfl⟩ | ⟨mid, rfl, hbehind⟩
    · have hrest' : ∀ u ∈ (inner ++ outdent :: rest).head?, u.kind ≠ .text := by
        cases inner with
        | nil => exact hclosing
        | cons v inner =>
          intro u hu
          exact kind_of_isBlock (isBlock_of_nestedKinds _ _ (hinner.kind_of_head u hu))
      have hplace : TextPlace (blockTree keyword name? (mid ++ t :: after) nested :: others) t
          ([] ++ keyword :: (name?.toList ++ indent :: mid))
          (after ++ (inner ++ outdent :: rest)) :=
        .intro hblock hname hindent (fun u hu => htexts u (by simp [hu]))
          (fun u hu => htexts u (by simp [hu])) hrest' (.here List.mem_cons_self)
      simpa using hplace
    rcases append_split hbehind with ⟨after, hsplit, rfl⟩ | ⟨mid, rfl, hlast⟩
    · have hplace := ihinner (isBlock_of_nestedKinds _) hsplit
      rw [← List.append_assoc]
      exact hplace.extend _ _ hclosing fun b hb => nested_blockTree hblock name? texts hb
    · cases mid with
      | nil =>
        obtain ⟨rfl, -⟩ := List.cons.inj hlast
        simp [houtdent] at ht
      | cons u mid =>
        obtain ⟨rfl, hsplit⟩ := List.cons.inj hlast
        have hplace : TextPlace (blockTree keyword name? texts nested :: others) t
            (keyword :: (name?.toList ++ [indent]) ++ (texts ++ (inner ++ [outdent])) ++ mid)
            (post ++ []) :=
          (ihrest hk hsplit).extend _ [] (by simp) fun b hb => hb.mono (List.subset_cons_self _ _)
        simpa using hplace

end Grammar

/-! ### Events without problems -/

namespace Builder

private theorem tokens_of_foldl {es : List Event} {b : Builder}
    (h : (es.foldl event b).problems = []) : es = (Event.tokens es).map .token := by
  have hkeep (es : List Event) (b : Builder) : b.problems <+: (es.foldl event b).problems := by
    induction es generalizing b with
    | nil => exact List.prefix_rfl
    | cons e es ih =>
      refine List.IsPrefix.trans ?_ (ih (b.event e))
      cases e with
      | token t => exact problems_take b t
      | problem d => exact List.prefix_append _ _
  induction es generalizing b with
  | nil => rfl
  | cons e es ih =>
    cases e with
    | token t => exact congrArg (.token t :: ·) (ih h)
    | problem d =>
      have hpre := hkeep es (b.note d)
      rw [show (es.foldl event (b.note d)).problems = [] from h, List.prefix_nil] at hpre
      simp [note] at hpre

/-- A document is built only from tokens, and at the end of all files. -/
theorem tokens_of_build {es : List Event} {outcome : Stream.Outcome} {d : Document}
    (h : build es outcome = .ok d) :
    es = (Event.tokens es).map .token ∧ ∃ ending, outcome = .finished ending := by
  have hnone {b : Builder} (hb : b.result = .ok d) : b.problems = [] := by
    unfold result at hb
    split at hb
    · next hempty => exact List.isEmpty_iff.mp hempty
    · cases hb
  cases outcome with
  | finished ending =>
    have hclosed : ((es.foldl event {}).take ending).problems = [] := hnone h
    have hpre := problems_take (es.foldl event {}) ending
    rw [hclosed, List.prefix_nil] at hpre
    exact ⟨tokens_of_foldl hpre, ending, rfl⟩
  | failed d' =>
    have hfailed := hnone h
    simp [note] at hfailed

end Builder

/-! ### Reading up to a directive -/

/-- `Reaches w width s es s'`: steps lead from `s` to `s'` and give the events `es`. -/
inductive Stream.Reaches (w : Workspace) (width : UInt64) :
    Stream → List Event → Stream → Prop where
  | refl (s : Stream) : Reaches w width s [] s
  | step {s s' s'' : Stream} {es fs : List Event} (hstep : s.step w width = .next es s')
      (hrest : Reaches w width s' fs s'') : Reaches w width s (es ++ fs) s''

/-- A stream that is reached from one that is reached is reached, with the events of both ways. -/
theorem Stream.Reaches.trans {w : Workspace} {width : UInt64} {s s' s'' : Stream}
    {es fs : List Event} (h : Reaches w width s es s') (h' : Reaches w width s' fs s'') :
    Reaches w width s (es ++ fs) s'' := by
  induction h with
  | refl s => exact h'
  | step hstep _ ih =>
    rw [List.append_assoc]
    exact .step hstep (ih h')

/-- A run goes through every stream that it reaches. -/
theorem Stream.Reaches.run {w : Workspace} {width : UInt64} {s s' : Stream} {es : List Event}
    (h : Reaches w width s es s') :
    s.run w width = (es ++ (s'.run w width).1, (s'.run w width).2) := by
  induction h with
  | refl s => rfl
  | step hstep _ ih => rw [run_of_next hstep, ih, List.append_assoc]

/-- Read from an origin. -/
def Origin.read (w : Workspace) (options : ReadOptions) : Origin → Except (List Diagnostic) Document
  | text fileName source => Compile.text w options fileName source
  | file name => Compile.file w options name

/-- To read is to parse and to finish what was parsed. -/
theorem Origin.read_eq (w : Workspace) (options : ReadOptions) (origin : Origin) :
    origin.read w options =
      (origin.parse w options.width options.searchPaths).map (Compile.finish options) := by
  cases origin <;> rfl

/-- A point on the way of a reading: the innermost open file goes on with a directive that matches
files. -/
structure EmbedPoint (w : Workspace) (options : ReadOptions) (origin : Origin) where
  start : Stream
  /-- The events before the directive. -/
  given : List Event
  here : Stream
  directive : Token
  pattern : Token
  rest : List Token
  outer : List (List Token)
  paths : List String
  files : List SourceFile
  starts : origin.stream w options.width options.searchPaths = .ok start
  reaches : start.Reaches w options.width given here
  opened : here.opened = (directive :: pattern :: rest) :: outer
  isEmbed : directive.kind = .embedFiles
  isName : pattern.kind = .keywordText
  matched : here.sources.expand w pattern.text = .ok paths
  nonempty : paths ≠ []
  loaded : paths.mapM (Sources.loadEmbedded w) = .ok files

namespace EmbedPoint

variable {w : Workspace} {options : ReadOptions} {origin : Origin}

/-- The keyword of the block that the directive stands in: the last one before it. -/
def keyword? (p : EmbedPoint w options origin) : Option Token :=
  ((Event.tokens p.given).filter (·.kind.isBlock)).getLast?

/-- The texts of the block in front of the directive. -/
def texts (p : EmbedPoint w options origin) : List Token :=
  (Event.tokens p.given).rtakeWhile (·.kind = .text)

private theorem files_ne_nil (p : EmbedPoint w options origin) : p.files ≠ [] := by
  have hlength := (mapM_eq_ok_iff.mp p.loaded).length_eq
  exact List.ne_nil_of_length_pos (hlength ▸ List.length_pos_of_ne_nil p.nonempty)

/-- The document holds the files that the directive matches as they are: below the block of the
directive stand, one behind the other in the order of the matches, a text whose last line names the
file and a region of exactly the lines of the file between two fences. -/
def Kept (p : EmbedPoint w options origin) (d : Document) : Prop :=
  ∃ keyword ∈ p.keyword?, ∃ block, Tree.Nested block d.trees ∧
    block.content = .ofToken keyword ∧
    ∃ before ts after, block.children = before ++ (ts ++ after) ∧ Lists p.files ts

/-- The tokens of the matched files come right behind the events before the directive. -/
theorem exists_run (p : EmbedPoint w options origin) :
    ∃ others outcome, p.start.run w options.width =
      (p.given ++ ((p.files.flatMap fun f => Embedding.content f.name f.contents).map .token ++
        others), outcome) := by
  have hevents : embeddedEvents w p.here.sources p.pattern =
      .ok ((p.files.flatMap fun f => contentTokens (Embedding.tokens f.name f.contents)).map
        .token) := by
    obtain ⟨path, paths, hpaths⟩ := List.exists_cons_of_ne_nil p.nonempty
    have hloaded := p.loaded
    rw [hpaths] at hloaded
    simp only [embeddedEvents, p.matched, hpaths, hloaded]
  simp only [contentTokens_embedding] at hevents
  have hhere : p.here =
      { sources := p.here.sources,
        opened := (p.directive :: p.pattern :: p.rest) :: p.outer, ending := p.here.ending } := by
    rw [← p.opened]
  obtain ⟨last, hlast⟩ : ∃ last, p.here.run w options.width = (_ ++ (Stream.run w options.width
      { sources := p.here.sources, opened := p.rest :: p.outer, ending := last }).1, _) := by
    rw [hhere]
    exact Stream.run_embed p.isEmbed p.isName hevents
  exact ⟨_, _, by rw [p.reaches.run, hlast]⟩

end EmbedPoint

namespace Compile

open Document Grammar

variable {w : Workspace} {options : ReadOptions} {origin : Origin}

/-- A document that was read holds the trees that its tokens derive, once outdents close them. -/
theorem derivation_of_readStream {width : UInt64} {s : Stream} {d : Document}
    (hs : s.ending.kind = .endOfFile) (h : readStream w width s = .ok d) :
    ∃ closing forest, (∀ t ∈ closing, t.kind = .outdent) ∧
      IsDocument (Event.tokens (s.run w width).1 ++ closing) forest ∧ d = .ofForest forest := by
  have hbuild : Builder.build (s.run w width).1 (s.run w width).2 = .ok d := h
  obtain ⟨htokens, ending, houtcome⟩ := Builder.tokens_of_build hbuild
  have hending := Stream.kind_of_ending s hs houtcome
  have heof : ∀ t ∈ Event.tokens (s.run w width).1, t.kind ≠ .endOfFile := by
    intro t ht hk
    have hinner := Stream.kind_of_mem_run s t (Event.mem_tokens.mp ht)
    rw [hk] at hinner
    cases hinner
  rw [htokens, houtcome] at hbuild
  obtain ⟨closing, forest, hclosing, hdoc⟩ := Builder.derivable_of_build heof hending hbuild
  rw [Builder.build_of_isDocument hclosing hdoc hending] at hbuild
  cases hbuild
  exact ⟨closing, forest, hclosing, hdoc, rfl⟩

/-- A document that was read holds the trees that its tokens derive. -/
theorem isDocument_of_readStream {width : UInt64} {s : Stream} {d : Document}
    (hs : s.ending.kind = .endOfFile) (h : readStream w width s = .ok d) :
    ∃ closing forest, IsDocument (Event.tokens (s.run w width).1 ++ closing) forest ∧
      d = .ofForest forest := by
  obtain ⟨closing, forest, -, hdoc, hd⟩ := derivation_of_readStream hs h
  exact ⟨closing, forest, hdoc, hd⟩

private theorem nested_joinLines {ts : List Token} {forest : List Tree} {block : Tree}
    (hdoc : IsDocument ts forest) (h : Tree.Nested block forest)
    (htext : block.content.isText = false) :
    Tree.Nested block.joined (Document.ofForest forest).joinLines.trees := by
  obtain ⟨ids, hspans, hn⟩ := Document.spans_roots_ofForest hdoc.isBlock hdoc.distinct
  have hperm := Document.trees_perm_ofForest hdoc.isBlock hdoc.distinct
  rw [Document.trees_joinLines hspans hn]
  exact ((h.mono hperm.symm.subset).joined htext).1

private theorem rtakeWhile_texts {front before : List Token} {u : Token} (hu : u.kind ≠ .text)
    (hbefore : ∀ t ∈ before, t.kind = .text) :
    (front ++ u :: before).rtakeWhile (·.kind = .text) = before := by
  have hall : ∀ t ∈ before.reverse, decide (t.kind = .text) = true := fun t ht => by
    simpa using hbefore t (List.mem_reverse.mp ht)
  rw [List.rtakeWhile, List.reverse_append, List.reverse_cons, List.append_assoc,
    List.takeWhile_append_of_pos hall]
  simp [hu]

private theorem getLast?_keywords {front before : List Token} {keyword indent : Token}
    {name? : Option Token} (hkeyword : keyword.kind.isBlock = true)
    (hname : ∀ t ∈ name?, t.kind = .keywordText) (hindent : indent.kind = .indent)
    (hbefore : ∀ t ∈ before, t.kind = .text) :
    ((front ++ keyword :: (name?.toList ++ indent :: before)).filter (·.kind.isBlock)).getLast? =
      some keyword := by
  have hnone : (name?.toList ++ indent :: before).filter (·.kind.isBlock) = [] := by
    refine List.filter_eq_nil_iff.mpr fun t ht => ?_
    simp only [List.mem_append, Option.mem_toList, List.mem_cons] at ht
    rcases ht with ht | rfl | ht
    · simp [hname t ht, TokenKind.isBlock]
    · simp [hindent, TokenKind.isBlock]
    · simp [hbefore t ht, TokenKind.isBlock]
  rw [List.filter_append, List.filter_cons, if_pos hkeyword, hnone]
  simp

/-- Texts are a first part of what follows, if something else than a text comes behind that. -/
theorem prefix_of_texts {texts others after rest : List Token}
    (htexts : ∀ t ∈ texts, t.kind = .text) (hrest : ∀ t ∈ rest.head?, t.kind ≠ .text)
    (h : texts ++ others = after ++ rest) : ∃ more, after = texts ++ more := by
  rcases List.append_eq_append_iff.mp h with ⟨more, hafter, -⟩ | ⟨more, htexts', hrest'⟩
  · exact ⟨more, hafter⟩
  · cases more with
    | nil => exact ⟨[], by simpa using htexts'.symm⟩
    | cons t more =>
      refine absurd (htexts t ?_) (hrest t ?_)
      · simp [htexts']
      · simp [hrest']

/-- Where no fence is open in front of a directive and no line of a matched file starts with a
fence, the files are embedded as they are, once lines are joined. -/
theorem embedded_verbatim (p : EmbedPoint w options origin) {d : Document}
    (hread : origin.read w options = .ok d) (hjoin : options.joinLines = true)
    (hfence : Even (p.texts.countP (isFence ·.text))) (hplain : ∀ f ∈ p.files, f.Unfenced) :
    p.Kept d := by
  obtain ⟨raw, hraw, rfl⟩ : ∃ raw, readStream w options.width p.start = .ok raw ∧
      d = raw.joinLines := by
    rw [Origin.read_eq, Origin.parse_eq, p.starts] at hread
    cases hraw : readStream w options.width p.start with
    | error problems =>
      simp only [Except.bind, hraw] at hread
      cases hread
    | ok raw =>
      simp only [Except.bind, hraw] at hread
      cases hread
      exact ⟨raw, rfl, by rw [finish, if_pos hjoin]⟩
  obtain ⟨closing, forest, hdoc, rfl⟩ :=
    isDocument_of_readStream (Origin.kind_of_stream p.starts) hraw
  obtain ⟨others, outcome, hrun⟩ := p.exists_run
  have hblocks := hdoc.blocks
  rw [hrun, Event.tokens_append, Event.tokens_append, Event.tokens_map] at hblocks
  -- The first embedded token stands in a block, and all others follow it there.
  obtain ⟨f, files, hfiles⟩ := List.exists_cons_of_ne_nil p.files_ne_nil
  have hembedded : ∀ t ∈ p.files.flatMap (fun f => Embedding.content f.name f.contents),
      t.kind = .text := by
    intro t ht
    obtain ⟨f', -, hf'⟩ := List.mem_flatMap.mp ht
    exact Embedding.kind_of_content hf'
  obtain ⟨t, embedded, hcons⟩ : ∃ t embedded,
      p.files.flatMap (fun f => Embedding.content f.name f.contents) = t :: embedded := by
    rw [hfiles]
    exact ⟨_, _, rfl⟩
  rw [hcons] at hblocks hembedded
  have hplace : TextPlace forest t (Event.tokens p.given)
      (embedded ++ (Event.tokens others ++ closing)) :=
    hblocks.textPlace isBlock_of_topKinds (by simp) (hembedded t (by simp))
  generalize hpre : Event.tokens p.given = pre at hplace
  generalize hpost : embedded ++ (Event.tokens others ++ closing) = post at hplace
  obtain ⟨hkeyword, hname, hindent, hbefore, hafter, hrest, hblock⟩ := hplace
  rename_i front before after rest keyword indent name? nested
  obtain ⟨more, rfl⟩ := prefix_of_texts (fun u hu => hembedded u (by simp [hu])) hrest hpost
  have htexts : p.texts = before := by
    rw [EmbedPoint.texts, hpre, ← List.cons_append, ← List.append_assoc]
    exact rtakeWhile_texts (by simp [hindent]) hbefore
  have hkeyword? : p.keyword? = some keyword := by
    rw [EmbedPoint.keyword?, hpre]
    exact getLast?_keywords hkeyword hname hindent hbefore
  rw [htexts] at hfence
  obtain ⟨kept, ts, later, hchildren, hlists⟩ :=
    @children_of_embedding keyword name? before more p.files nested hname hbefore
      (fun u hu => hafter u (by simp [hu])) hfence p.files_ne_nil hplain
  rw [hcons, List.cons_append] at hchildren
  refine ⟨keyword, hkeyword?, _, nested_joinLines hdoc hblock ?_, ?_, kept, ts, later, hchildren,
    hlists⟩
  · rw [Content.isText, kind_blockTree]
    cases hk : keyword.kind <;> simp_all [TokenKind.isBlock]
  · rw [Tree.content_joined]
    rfl

/-! ### A file with and without a fence of its own -/

/-- An action that embeds one file. -/
def notesOutline : String := "Action:\n    Embed: notes.md\n"

/-- The outline beside the file that it embeds. -/
def notesWorkspace (notes : String) : Workspace where
  tree.entries :=
    [(["main.m6r"], .file (Text.Utf8.encode notesOutline)),
      (["notes.md"], .file (Text.Utf8.encode notes))]

private theorem load_notesOutline (notes : String) :
    Sources.load {} (notesWorkspace notes) "main.m6r" =
      ({ used := [["main.m6r"]] },
        .ok { name := "main.m6r", location := ["main.m6r"], contents := notesOutline }) := by
  have htext : Text.Utf8.text? (Text.Utf8.encode notesOutline) = some notesOutline := by
    decide +kernel
  have hread : (notesWorkspace notes).read "main.m6r" = .ok (Text.Utf8.encode notesOutline) := rfl
  have hresolve : Sources.resolve {} (notesWorkspace notes) "main.m6r" = .ok "main.m6r" := rfl
  have hfile : (notesWorkspace notes).isDirectory "main.m6r" = false := rfl
  have hlocate : (notesWorkspace notes).locate "main.m6r" = .ok ["main.m6r"] := rfl
  simp [Sources.load, hresolve, hfile, hlocate, Sources.readOnce, Workspace.readText, hread, htext]

/-- The point where the outline embeds the file. -/
def notesPoint (notes : String) : EmbedPoint (notesWorkspace notes) {} (.file "main.m6r") where
  start :=
    { sources := { used := [["main.m6r"]] },
      opened := [Outline.tokens 4 "main.m6r" notesOutline] }
  given :=
    [.token ⟨.action, "Action:", "Action:", "main.m6r", 1, 1⟩] ++
      ([.token ⟨.indent, "[Indent]", "    Embed: notes.md", "main.m6r", 2, 5⟩] ++ [])
  here :=
    { sources := { used := [["main.m6r"]] },
      opened := [(Outline.tokens 4 "main.m6r" notesOutline).drop 2] }
  directive := ⟨.embedFiles, "Embed:", "    Embed: notes.md", "main.m6r", 2, 5⟩
  pattern := ⟨.keywordText, "notes.md", "    Embed: notes.md", "main.m6r", 2, 12⟩
  rest := (Outline.tokens 4 "main.m6r" notesOutline).drop 4
  outer := []
  paths := ["notes.md"]
  files :=
    [{ name := "notes.md", location := ["notes.md"],
       contents := Text.Utf8.lossy (Text.Utf8.encode notes) }]
  starts := by
    rw [Origin.stream, load_notesOutline]
  reaches := .step rfl (.step rfl (.refl _))
  opened := rfl
  isEmbed := rfl
  isName := rfl
  matched := rfl
  nonempty := List.cons_ne_nil _ _
  loaded := rfl

private theorem read_notes (notes : String) (contents : List Content)
    (h : ((Round.after (notesWorkspace notes) 4 24
        (Origin.start (notesWorkspace notes) 4 [] (.file "main.m6r"))).document?.map
          fun d => d.joinLines.listing.map (·.2)) = some contents) :
    ∃ d, Origin.read (notesWorkspace notes) {} (.file "main.m6r") = .ok d ∧
      d.listing.map (·.2) = contents := by
  obtain ⟨raw, hraw, hlisting⟩ := Option.map_eq_some_iff.mp h
  refine ⟨raw.joinLines, ?_, hlisting⟩
  rw [Origin.read_eq, Origin.parse_of_ended (Round.ended_of_document? hraw)]
  rfl

/-- A file with an empty line is embedded as it is. -/
theorem embedded_verbatim_notes :
    ∃ d, Origin.read (notesWorkspace "a\n\nb\n") {} (.file "main.m6r") = .ok d ∧
      (notesPoint "a\n\nb\n").Kept d := by
  have hlossy : Text.Utf8.lossy (Text.Utf8.encode "a\n\nb\n") = "a\n\nb\n" := by decide +kernel
  have hplain : ∀ f ∈ (notesPoint "a\n\nb\n").files, f.Unfenced := by
    intro f hf
    obtain rfl := List.mem_singleton.mp hf
    rw [SourceFile.Unfenced, hlossy]
    decide +kernel
  obtain ⟨d, hread, -⟩ := read_notes "a\n\nb\n"
    [⟨.action, "", 1, 1, .line⟩, ⟨.text, "File: notes.md", 1, 1, .paragraph⟩,
      ⟨.text, "\x60\x60\x60markdown\na\n\nb\n\x60\x60\x60", 1, 1, .fenced⟩] (by decide +kernel)
  exact ⟨d, hread, embedded_verbatim _ hread rfl (by decide +kernel) hplain⟩

/-- A text with a line that starts with a fence. -/
def fencedNotes : String := "a\n\x60\x60\x60\nb\n"

/-- A line of the file that starts with a fence ends its region early: the rest of the file becomes
a paragraph, and the closing fence opens a region of its own. -/
theorem not_kept_fencedNotes :
    ∃ d, Origin.read (notesWorkspace fencedNotes) {} (.file "main.m6r") = .ok d ∧
      Even ((notesPoint fencedNotes).texts.countP (isFence ·.text)) ∧
      d.listing.map (·.2) =
        [⟨.action, "", 1, 1, .line⟩, ⟨.text, "File: notes.md", 1, 1, .paragraph⟩,
          ⟨.text, "\x60\x60\x60markdown\na\n\x60\x60\x60", 1, 1, .fenced⟩,
          ⟨.text, "b", 3, 1, .paragraph⟩, ⟨.text, "\x60\x60\x60", 4, 1, .fenced⟩] ∧
      ¬ (notesPoint fencedNotes).Kept d := by
  obtain ⟨d, hread, hlisting⟩ := read_notes fencedNotes
    [⟨.action, "", 1, 1, .line⟩, ⟨.text, "File: notes.md", 1, 1, .paragraph⟩,
      ⟨.text, "\x60\x60\x60markdown\na\n\x60\x60\x60", 1, 1, .fenced⟩,
      ⟨.text, "b", 3, 1, .paragraph⟩, ⟨.text, "\x60\x60\x60", 4, 1, .fenced⟩] (by decide +kernel)
  refine ⟨d, hread, by decide +kernel, hlisting, ?_⟩
  rintro ⟨keyword, -, block, hnested, -, before, ts, after, hchildren, hlists⟩
  -- the whole file in one region is none of the nodes
  obtain _ | ⟨_, _⟩ := hlists
  have hmem := hnested.mem_preorderAll 0 (u := listing
    { name := "notes.md", location := ["notes.md"],
      contents := Text.Utf8.lossy (Text.Utf8.encode fencedNotes) }) (by simp [hchildren])
  rw [← Document.listing, hlisting] at hmem
  revert hmem
  decide +kernel

end Compile

end PromptOutline
