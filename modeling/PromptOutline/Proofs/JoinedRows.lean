import PromptOutline.Proofs.Grammar
import PromptOutline.Proofs.Joining
import PromptOutline.Proofs.Rows

/-!
# The rows of joined lines

Joining lines drops empty rows and changes no other row. A walk over neighbouring trees keeps the
rows of every tree it takes, and it moves nothing in front of a name.
-/

namespace PromptOutline

namespace Prompt

/-- The rows that are not empty. -/
def filled (rows : List (List Char)) : List (List Char) := rows.filter (· ≠ [])

/-- Rows are filled one by one. -/
@[simp] theorem filled_append (rs qs : List (List Char)) :
    filled (rs ++ qs) = filled rs ++ filled qs := by
  simp [filled]

end Prompt

namespace Tree

open Prompt

/-! ### Lines as trees -/

/-- A line is a text. -/
theorem kind_of_isLine {t : Tree} (h : t.isLine = true) : t.content.kind = .text := by
  simp only [isLine, Content.isText, Bool.and_eq_true, beq_iff_eq] at h
  exact h.1

/-- A tree to which a line is added stays of its kind. -/
@[simp] theorem kind_addLine (line : String) (t : Tree) :
    (t.addLine line).content.kind = t.content.kind := by
  cases t
  rfl

/-- A tree of another form stays of its kind. -/
@[simp] theorem kind_withForm (form : TextForm) (t : Tree) :
    (t.withForm form).content.kind = t.content.kind := by
  cases t
  rfl

/-- A line joined to a text adds its rows. -/
theorem rows_addLine {t u : Tree} (ht : t.content.kind = .text) (hu : u.content.kind = .text)
    (d : Nat) : rows d (u.addLine t.content.value) = rows d u ++ rows d t := by
  have hvalue : (u.addLine t.content.value).content.value.toList =
      u.content.value.toList ++ '\n' :: t.content.value.toList := by
    cases u
    simp [addLine, content]
  rw [rows_of_text ((kind_addLine _ u).trans hu), rows_of_text hu, rows_of_text ht, hvalue,
    Text.pieces_append, List.map_append]

/-- A text is drawn the same in any form. -/
theorem rows_withForm {t : Tree} (ht : t.content.kind = .text) (form : TextForm) (d : Nat) :
    rows d (t.withForm form) = rows d t := by
  rw [rows_of_text ((kind_withForm form t).trans ht), rows_of_text ht]
  cases t
  rfl

/-- An empty text has no rows to keep. -/
theorem filled_empty {t : Tree} (ht : t.content.kind = .text)
    (hempty : t.content.value.isEmpty = true) (d : Nat) : filled (rows d t) = [] := by
  rw [rows_of_text ht, String.isEmpty_iff.mp hempty]
  rfl

/-! ### One walk -/

namespace Gathering

variable {g : Gathering}

/-- What takes the next line is text. -/
def OpenText (g : Gathering) : Prop := ∀ u ∈ g.target.toList, u.content.kind = .text

/-- A step keeps the open tree a text. -/
theorem OpenText.step (hg : g.OpenText) (t : Tree) : (g.step t).OpenText := by
  have hstep := steps_step g t
  generalize g.step t = r at hstep
  cases hstep with
  | kept | dropped | closeFence => simp [OpenText, Target.toList]
  | openFence hline | openParagraph hline => simp [OpenText, Target.toList, kind_of_isLine hline]
  | joinParagraph _ _ _ hopen | joinFence _ _ hopen =>
    simp only [OpenText, hopen] at hg
    simpa [OpenText, Target.toList] using hg

/-- A step keeps the rows so far and adds those of the tree it takes. -/
theorem filled_step (hg : g.OpenText) (t : Tree) (d : Nat) :
    filled (rowsAll d (g.step t).kept) = filled (rowsAll d g.kept) ++ filled (rows d t) := by
  have hadd {u : Tree} (hline : t.isLine = true) (hu : u ∈ g.target.toList) :
      filled (rowsAll d (g.done ++ [u.addLine t.content.value])) =
        filled (rowsAll d (g.done ++ [u])) ++ filled (rows d t) := by
    simp only [rowsAll_append, rowsAll_singleton, rows_addLine (kind_of_isLine hline) (hg u hu),
      filled_append, List.append_assoc]
  have hstep := steps_step g t
  generalize g.step t = r at hstep
  cases hstep with
  | kept hline =>
    simp only [kept, Target.toList, List.append_nil, rowsAll_append, rowsAll_singleton,
      filled_append]
  | dropped hline hempty =>
    rw [filled_empty (kind_of_isLine hline) hempty, List.append_nil]
    simp only [kept, Target.toList, List.append_nil]
  | openFence hline =>
    rw [← rows_withForm (kind_of_isLine hline) .fenced, ← rowsAll_singleton, ← filled_append,
      ← rowsAll_append]
    rfl
  | openParagraph hline =>
    rw [← rows_withForm (kind_of_isLine hline) .paragraph, ← rowsAll_singleton, ← filled_append,
      ← rowsAll_append]
    rfl
  | joinParagraph hline _ _ hopen =>
    simpa only [kept, hopen, Target.toList] using hadd hline (by simp [hopen, Target.toList])
  | joinFence hline _ hopen =>
    simpa only [kept, hopen, Target.toList] using hadd hline (by simp [hopen, Target.toList])
  | closeFence hline _ hopen =>
    simpa only [kept, hopen, Target.toList, List.append_nil] using
      hadd hline (by simp [hopen, Target.toList])

/-- Every tree that a step leaves is a text or was there before. -/
theorem mem_step (hg : g.OpenText) {t u : Tree} (hu : u ∈ (g.step t).kept) :
    u.content.kind = .text ∨ u ∈ g.kept ∨ u = t := by
  have hdone (hu : u ∈ g.done) : u ∈ g.kept := List.mem_append_left _ hu
  have hopen := hg.step t
  have hstep := steps_step g t
  generalize g.step t = r at hstep hopen hu
  rcases List.mem_append.mp hu with hu | hu
  · cases hstep with
    | kept =>
      rcases List.mem_append.mp hu with hu | hu
      · exact .inr (.inl hu)
      · exact .inr (.inr (List.mem_singleton.mp hu))
    | dropped | openFence | openParagraph => exact .inr (.inl hu)
    | joinParagraph | joinFence => exact .inr (.inl (hdone hu))
    | closeFence _ _ htarget =>
      rcases List.mem_append.mp hu with hu | hu
      · exact .inr (.inl (hdone hu))
      · rw [List.mem_singleton.mp hu, kind_addLine]
        exact .inl (hg _ (by simp [htarget, Target.toList]))
  · exact .inl (hopen u hu)

/-- Trees that stand before all others stay there. -/
theorem step_behind (ts : List Tree) (g : Gathering) (t : Tree) :
    ({ g with done := ts ++ g.done } : Gathering).step t =
      { g.step t with done := ts ++ (g.step t).done } := by
  obtain ⟨done, target⟩ := g
  cases target with
  | closed | paragraph | fenced =>
    simp only [step, kept, Target.toList]
    split_ifs <;> simp

end Gathering

/-! ### Neighbouring trees -/

/-- Gathering lines drops empty rows only. -/
theorem filled_gather (d : Nat) (ts : List Tree) :
    filled (rowsAll d (gather ts)) = filled (rowsAll d ts) := by
  have hfold (ts : List Tree) (g : Gathering) (hg : g.OpenText) :
      filled (rowsAll d (ts.foldl Gathering.step g).kept) =
        filled (rowsAll d g.kept) ++ filled (rowsAll d ts) := by
    induction ts generalizing g with
    | nil => simp [rowsAll, filled]
    | cons t ts ih =>
      rw [List.foldl_cons, ih _ (hg.step t), Gathering.filled_step hg, rowsAll, filled_append,
        List.append_assoc]
  exact hfold ts {} (by simp [Gathering.OpenText, Target.toList])

/-- Every gathered tree is a text or one of the trees. -/
theorem mem_gather {ts : List Tree} {u : Tree} (hu : u ∈ gather ts) :
    u.content.kind = .text ∨ u ∈ ts := by
  have hfold (ts : List Tree) (g : Gathering) (hg : g.OpenText)
      (hu : u ∈ (ts.foldl Gathering.step g).kept) :
      u.content.kind = .text ∨ u ∈ g.kept ∨ u ∈ ts := by
    induction ts generalizing g with
    | nil => exact .inr (.inl hu)
    | cons t ts ih =>
      rcases ih _ (hg.step t) hu with htext | hkept | hmem
      · exact .inl htext
      · exact (Gathering.mem_step hg hkept).imp id (Or.imp id fun he => by simp [he])
      · exact .inr (.inr (List.mem_cons_of_mem t hmem))
  rcases hfold ts {} (by simp [Gathering.OpenText, Target.toList]) hu with htext | hkept | hmem
  · exact .inl htext
  · simp [Gathering.kept, Target.toList] at hkept
  · exact .inr hmem

/-- A walk behind trees that are done leaves them where they are. -/
theorem Gathering.kept_foldl_behind (done ts : List Tree) (g : Gathering) :
    (ts.foldl step { g with done := done ++ g.done }).kept = done ++ (ts.foldl step g).kept := by
  induction ts generalizing g with
  | nil => simp [kept]
  | cons t ts ih => rw [List.foldl_cons, step_behind, ih, List.foldl_cons]

/-- Behind a walk that leaves nothing open, trees are gathered as if they stood alone. -/
theorem gather_append {ts us done : List Tree} (h : ts.foldl Gathering.step {} = { done }) :
    gather (ts ++ us) = done ++ gather us := by
  have hbehind := Gathering.kept_foldl_behind done us {}
  rw [List.append_nil] at hbehind
  rw [gather, List.foldl_append, h]
  exact hbehind

/-- A tree that is no line stays in front of what is gathered behind it. -/
theorem gather_cons {t : Tree} (ht : t.isLine = false) (ts : List Tree) :
    gather (t :: ts) = t :: gather ts := by
  have hstep : [t].foldl Gathering.step {} = { done := [t] } := by
    simp [Gathering.step, ht, Gathering.kept, Target.toList]
  exact gather_append hstep

/-! ### Blocks -/

/-- Joining the lines below a tree leaves the tree itself as it is. -/
@[simp] theorem content_joined (t : Tree) : t.joined.content = t.content := by
  cases t
  rfl

private theorem kind_below (t : Tree) :
    (if t.content.isText then t else t.joined).content.kind = t.content.kind := by
  split <;> simp

/-- A name stays where it is, if it is the first of the trees. -/
theorem name?_joined {c : Content} {cs : List Tree}
    (hnames : ∀ t ∈ cs.tail, t.content.kind ≠ .keywordText) :
    (node c cs).joined.name? = (node c cs).name? := by
  rw [joined, joinedBelow_eq_map]
  cases cs with
  | nil => rfl
  | cons t cs =>
    by_cases ht : t.content.kind = .keywordText
    · have hbelow : (if t.content.isText then t else t.joined) = t.joined := by
        simp [Content.isText, ht]
      rw [List.map_cons, hbelow, gather_cons (by simp [isLine, Content.isText, ht])]
      cases t
      rfl
    · have hall : ∀ u ∈ t :: cs, u.content.kind ≠ .keywordText := by
        intro u hu
        rcases List.mem_cons.mp hu with rfl | hu
        · exact ht
        · exact hnames u hu
      rw [name?_of_forall hall]
      apply name?_of_forall
      intro u hu
      rcases mem_gather hu with he | hu
      · simp [he]
      · obtain ⟨v, hv, rfl⟩ := List.mem_map.mp hu
        rw [kind_below]
        exact hall v hv

/-- If joining keeps the rows of the trees below a node, it keeps the rows of the node. -/
theorem filled_joined {c : Content} {cs : List Tree}
    (hnames : ∀ t ∈ cs.tail, t.content.kind ≠ .keywordText)
    (hbelow : ∀ t ∈ cs, ∀ d, filled (rows d t.joined) = filled (rows d t)) (d : Nat) :
    filled (rows d (node c cs).joined) = filled (rows d (node c cs)) := by
  have hall : filled (rowsAll (d + 1) (gather (joinedBelow cs))) = filled (rowsAll (d + 1) cs) := by
    rw [filled_gather, joinedBelow_eq_map, rowsAll_eq_flatMap, rowsAll_eq_flatMap, filled, filled,
      List.filter_flatMap, List.filter_flatMap, List.flatMap_map]
    refine List.flatMap_congr fun t ht => ?_
    split
    · rfl
    · exact hbelow t ht (d + 1)
  -- the head row is the only one that looks at the trees below
  have hname := name?_joined (c := c) hnames
  rw [joined] at hname ⊢
  rw [rows, rows, hname]
  split
  · rfl
  · split
    · rw [← List.singleton_append, filled_append, hall, ← filled_append, List.singleton_append]
    · rfl

end Tree

namespace Grammar

open Prompt

/-- Behind its name, a block holds texts and blocks. -/
theorem kinds_behind_name {texts : List Token} {nested : List Tree} (keyword : Token)
    (name? : Option Token) (htexts : ∀ t ∈ texts, t.kind = .text)
    (hnested : ∀ t ∈ nested, t.content.kind.isBlock = true) :
    ∀ t ∈ (blockTree keyword name? texts nested).children.tail, t.content.kind ≠ .keywordText := by
  intro t ht
  have hmem : t ∈ texts.map leaf ++ nested := by
    cases name? with
    | none => exact List.mem_of_mem_tail ht
    | some name => exact ht
  rcases List.mem_append.mp hmem with hmem | hmem
  · obtain ⟨u, hu, rfl⟩ := List.mem_map.mp hmem
    simp [leaf, Tree.content, Content.ofToken, htexts u hu]
  · intro he
    have hblock := hnested t hmem
    rw [he] at hblock
    cases hblock

/-- Joining lines drops empty rows only. -/
theorem Blocks.filled_joined {kinds : List TokenKind} {ts : List Token} {forest : List Tree}
    (h : Blocks kinds ts forest) :
    ∀ t ∈ forest, ∀ d, filled (rows d t.joined) = filled (rows d t) := by
  induction h with
  | nil => simp
  | @cons kinds keyword indent outdent name? texts inner rest nested others
      hkeyword hname hindent htexts hinner houtdent hrest ihinner ihrest =>
    intro t ht d
    rcases List.mem_cons.mp ht with rfl | ht
    · have hnested : ∀ t ∈ nested, t.content.kind.isBlock = true := fun t ht =>
        isBlock_of_nestedKinds _ _ (hinner.kinds_of_trees t ht)
      refine Tree.filled_joined (kinds_behind_name keyword name? htexts hnested) ?_ d
      intro t ht
      rcases List.mem_append.mp ht with ht | ht
      · obtain ⟨u, -, rfl⟩ := List.mem_map.mp ht
        exact fun _ => rfl
      · rcases List.mem_append.mp ht with ht | ht
        · obtain ⟨u, -, rfl⟩ := List.mem_map.mp ht
          exact fun _ => rfl
        · exact ihinner t ht
    · exact ihrest t ht d

end Grammar

end PromptOutline
