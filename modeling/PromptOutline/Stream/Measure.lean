import PromptOutline.Stream.Step

/-!
# Why the stream ends

Three counts bound what a stream can still give: the files that no outline was read from, the
directives that wait, and the tokens that wait. An included outline lowers the first. An embedding
lowers the second, because embedded files hold no directives. Every other step lowers the third and
raises none.
-/

namespace PromptOutline.Stream

/-- The files that no outline of this stream was read from. -/
def unused (w : Workspace) (s : Stream) : Nat :=
  w.tree.files.countP (!s.sources.used.contains ·)

/-- The directives among tokens. -/
def directivesIn (ts : List Token) : Nat := ts.countP (·.kind.isDirective)

/-- The sum of a measure over open files. -/
def total (f : List Token → Nat) : List (List Token) → Nat
  | [] => 0
  | ts :: rest => f ts + total f rest

/-- The directives that wait. -/
def directives (s : Stream) : Nat := total directivesIn s.opened

/-- The tokens and files that wait. -/
def waiting (s : Stream) : Nat := total (·.length + 1) s.opened

/-- The order by which steps go down: by unused files, then directives, then tokens. -/
def Below (w : Workspace) (t s : Stream) : Prop :=
  Prod.Lex (· < ·) (Prod.Lex (· < ·) (· < ·))
    (t.unused w, t.directives, t.waiting) (s.unused w, s.directives, s.waiting)

private theorem total_append (f : List Token → Nat) (as bs : List (List Token)) :
    total f (as ++ bs) = total f as + total f bs := by
  induction as with
  | nil => simp [total]
  | cons ts rest ih => simp only [List.cons_append, total, ih]; omega

private theorem directivesIn_cons (t : Token) (ts : List Token) :
    directivesIn (t :: ts) = directivesIn ts + if t.kind.isDirective then 1 else 0 := by
  simp [directivesIn, List.countP_cons]

/-- An embedded file holds no directive. -/
theorem directivesIn_embedding (fileName source : String) :
    directivesIn (Embedding.tokens fileName source) = 0 := by
  have hlines : ∀ (number : Nat) (ls : List (List Char)),
      directivesIn (Embedding.lineTokens fileName number ls) = 0 := by
    intro number ls
    induction ls generalizing number with
    | nil => rfl
    | cons l ls ih =>
      rw [Embedding.lineTokens, directivesIn_cons, ih]
      rfl
  simp only [Embedding.tokens, directivesIn_cons]
  rw [directivesIn, List.countP_append, ← directivesIn, hlines]
  rfl

private theorem total_directivesIn_embedding (files : List SourceFile) :
    total directivesIn (files.map fun f => Embedding.tokens f.name f.contents) = 0 := by
  induction files with
  | nil => rfl
  | cons f fs ih =>
    rw [List.map_cons, total, directivesIn_embedding, ih]

/-- A file has a location among those of the files. -/
theorem mem_files_of_get? {t : FileTree} {l : Location} {bytes : List UInt8}
    (h : t.get? l = some (.file bytes)) : l ∈ t.files := by
  have hl : t.entries.lookup l = some (.file bytes) := by
    unfold FileTree.get? at h
    split at h
    · simp at h
    · exact h
  obtain ⟨pre, post, he, _⟩ := List.lookup_eq_some_iff.1 hl
  simp only [FileTree.files, List.mem_filterMap]
  exact ⟨(l, .file bytes), by simp [he], rfl⟩

/-- Recording one more location lowers the count of unrecorded ones among any that hold it. -/
theorem countP_record {used files : List Location} {l : Location} (hn : l ∉ used)
    (hm : l ∈ files) :
    files.countP (!(used ++ [l]).contains ·) < files.countP (!used.contains ·) := by
  induction files with
  | nil => simp at hm
  | cons x xs ih =>
    have hle : xs.countP (!(used ++ [l]).contains ·) ≤ xs.countP (!used.contains ·) := by
      apply List.countP_mono_left
      intro y _ hy
      simp only [List.contains_eq_mem, List.mem_append, Bool.not_eq_true', decide_eq_false_iff_not,
        not_or] at hy ⊢
      exact hy.1
    rw [List.countP_cons, List.countP_cons]
    by_cases he : l = x
    · subst he
      have h1 : (!(used ++ [l]).contains l) = false := by simp
      have h2 : (!used.contains l) = true := by simpa using hn
      rw [h1, h2]
      simp only [Bool.false_eq_true, if_false, if_true]
      omega
    · have hlt := ih (by simpa [he] using hm)
      have hx : (!(used ++ [l]).contains x) = (!used.contains x) := by
        simp [Ne.symm he]
      rw [hx]
      omega

/-- Loading an outline leaves fewer files unused. -/
theorem unused_load {w : Workspace} {s : Stream} {sources : Sources} {name : String}
    {f : SourceFile} (h : s.sources.load w name = (sources, .ok f)) (opened : List (List Token)) :
    ({ s with sources, opened } : Stream).unused w < s.unused w := by
  obtain ⟨hu, hn, bytes, hb⟩ := Sources.load_eq_ok h
  simp only [unused, hu]
  exact countP_record hn (mem_files_of_get? hb)

private theorem below_of_tokens {w : Workspace} {s t : Stream} (hs : t.sources = s.sources)
    (hd : t.directives ≤ s.directives) (hw : t.waiting < s.waiting) : Below w t s := by
  have hu : t.unused w = s.unused w := by rw [unused, unused, hs]
  rw [Below, hu]
  apply Prod.Lex.right
  rcases Nat.lt_or_eq_of_le hd with hlt | heq
  · exact Prod.Lex.left _ _ hlt
  · rw [heq]; exact Prod.Lex.right _ hw

/-- A stream with fewer directives over the same sources is below the other one. -/
theorem below_of_directives {w : Workspace} {s t : Stream} (hs : t.sources = s.sources)
    (hd : t.directives < s.directives) : Below w t s := by
  have hu : t.unused w = s.unused w := by rw [unused, unused, hs]
  rw [Below, hu]
  exact Prod.Lex.right _ (Prod.Lex.left _ _ hd)

/-- Dropping a directive from the innermost file leaves fewer directives. -/
theorem directives_drop {s : Stream} {t : Token} {rest : List Token} {outer : List (List Token)}
    (ho : s.opened = (t :: rest) :: outer) (hk : t.kind.isDirective = true) :
    ({ s with opened := rest :: outer } : Stream).directives < s.directives := by
  simp [directives, total, ho, directivesIn_cons, hk]

/-- Dropping a directive with its argument leaves fewer directives. -/
theorem directives_drop_two {s : Stream} {t a : Token} {rest : List Token}
    {outer : List (List Token)} (ho : s.opened = (t :: a :: rest) :: outer)
    (hk : t.kind.isDirective = true) :
    ({ s with opened := rest :: outer } : Stream).directives < s.directives := by
  simp only [directives, ho, total, directivesIn_cons, hk, if_true]
  omega

private theorem below_of_includeFile {w : Workspace} {width : UInt64} {s s' : Stream} {name : Token}
    {rest : List Token} {outer : List (List Token)} {es : List Event}
    (h : includeFile w width s name rest outer = .next es s') : Below w s' s := by
  unfold includeFile at h
  split at h
  · simp at h
  · next sources file hload =>
    simp only [Step.next.injEq] at h
    obtain ⟨rfl, rfl⟩ := h
    exact Prod.Lex.left _ _ (unused_load hload _)

private theorem below_of_embedFiles {w : Workspace} {s s' : Stream} {t pattern : Token}
    {rest : List Token} {outer : List (List Token)} {es : List Event}
    (ho : s.opened = (t :: pattern :: rest) :: outer) (hk : t.kind.isDirective = true)
    (h : embedFiles w s pattern rest outer = .next es s') : Below w s' s := by
  unfold embedFiles at h
  split at h
  · split at h
    · simp at h
    · simp only [Step.next.injEq] at h
      obtain ⟨rfl, rfl⟩ := h
      exact below_of_directives rfl (directives_drop_two ho hk)
  · simp only [Step.next.injEq] at h
    obtain ⟨rfl, rfl⟩ := h
    exact below_of_directives rfl (directives_drop_two ho hk)
  · split at h
    · simp at h
    · next files _ =>
      simp only [Step.next.injEq] at h
      obtain ⟨rfl, rfl⟩ := h
      refine below_of_directives rfl ?_
      have hlt := directives_drop_two ho hk
      simp only [directives, total_append, total_directivesIn_embedding,
        Nat.zero_add] at hlt ⊢
      exact hlt

/-- Every step goes down. -/
theorem below_of_step {w : Workspace} {width : UInt64} {s s' : Stream} {es : List Event}
    (h : s.step w width = .next es s') : Below w s' s := by
  unfold step at h
  split at h
  · simp at h
  · next outer ho =>
    simp only [Step.next.injEq] at h
    obtain ⟨rfl, rfl⟩ := h
    exact below_of_tokens rfl (by simp [directives, total, ho]) (by simp [waiting, total, ho])
  · next t rest outer ho =>
    split at h
    · simp only [Step.next.injEq] at h
      obtain ⟨rfl, rfl⟩ := h
      exact below_of_tokens rfl (by simp [directives, total, ho]) (by simp [waiting, total, ho])
    · next hk =>
      have hd : t.kind.isDirective = true := by rw [hk]; rfl
      split at h
      · split at h
        · exact below_of_includeFile h
        · simp only [Step.next.injEq] at h
          obtain ⟨rfl, rfl⟩ := h
          exact below_of_directives rfl (directives_drop ho hd)
      · simp only [Step.next.injEq] at h
        obtain ⟨rfl, rfl⟩ := h
        exact below_of_directives rfl (directives_drop ho hd)
    · next hk =>
      have hd : t.kind.isDirective = true := by rw [hk]; rfl
      split at h
      · split at h
        · exact below_of_embedFiles ho hd h
        · simp only [Step.next.injEq] at h
          obtain ⟨rfl, rfl⟩ := h
          exact below_of_directives rfl (directives_drop ho hd)
      · simp only [Step.next.injEq] at h
        obtain ⟨rfl, rfl⟩ := h
        exact below_of_directives rfl (directives_drop ho hd)
    · simp only [Step.next.injEq] at h
      obtain ⟨rfl, rfl⟩ := h
      refine below_of_tokens rfl ?_ (by simp [waiting, total, ho])
      simp only [directives, ho, total, directivesIn_cons]
      omega

end PromptOutline.Stream
