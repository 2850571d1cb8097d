import PromptOutline.Proofs.Collecting
import PromptOutline.Proofs.Rows
import PromptOutline.Sources

/-!
# Patterns and their components

A pattern is read as a whole, and once more component by component. Whether it can be read, and what
its components stand for, does not depend on the files there are; a fault of a pattern is reported
with the text of the pattern and is the same fault otherwise.
-/

namespace PromptOutline

/-! ### Texts and their pieces -/

namespace Text

/-- A part occurs in a text if it is an infix of it. -/
theorem occursIn_iff {part cs : List Char} : occursIn part cs = true ↔ part <:+: cs := by
  induction cs with
  | nil => simp [occursIn]
  | cons c cs ih =>
    rw [occursIn, Bool.or_eq_true, ih, List.isPrefixOf_iff_prefix, List.infix_cons_iff]

/-- A text without copies of a character at its end is a prefix of it. -/
theorem dropTrailing_prefix (c : Char) (cs : List Char) : dropTrailing c cs <+: cs := by
  rw [dropTrailing, ← List.reverse_suffix, List.reverse_reverse]
  exact List.dropWhile_suffix _

/-- Induction over the pieces of a text, from its end. -/
theorem pieces_induction (sep : Char) {P : List Char → Prop} (single : ∀ cs, sep ∉ cs → P cs)
    (cut : ∀ piece cs, sep ∉ piece → P cs → P (piece ++ sep :: cs)) (cs : List Char) : P cs := by
  by_cases hsep : sep ∈ cs
  · obtain ⟨piece, rest, rfl, hpiece⟩ := List.eq_append_cons_of_mem hsep
    exact cut piece rest hpiece (pieces_induction sep single cut rest)
  · exact single cs hsep
  termination_by cs.length
  decreasing_by simp_all; omega

/-- A piece up to a separator is the first one. -/
theorem pieces_piece_append {sep : Char} {piece : List Char} (h : sep ∉ piece) (cs : List Char) :
    pieces sep (piece ++ sep :: cs) = piece :: pieces sep cs := by
  rw [pieces_append, pieces_of_notMem h, List.singleton_append]

/-- What is written behind a text belongs to its last piece. -/
theorem pieces_append_of_notMem {sep : Char} {tail : List Char} (h : sep ∉ tail) (cs : List Char) :
    ∃ init last, pieces sep cs = init ++ [last] ∧
      pieces sep (cs ++ tail) = init ++ [last ++ tail] := by
  induction cs using pieces_induction sep with
  | single cs hcs =>
    refine ⟨[], cs, pieces_of_notMem hcs, pieces_of_notMem ?_⟩
    simp [hcs, h]
  | cut piece cs hpiece ih =>
    obtain ⟨init, last, hcs, htail⟩ := ih
    refine ⟨piece :: init, last, ?_, ?_⟩
    · rw [pieces_piece_append hpiece, hcs, List.cons_append]
    · rw [List.append_assoc, List.cons_append, pieces_piece_append hpiece, htail, List.cons_append]

/-- A piece that is not the last one is followed by a separator. -/
theorem infix_of_mem_dropLast {sep : Char} {cs piece : List Char}
    (h : piece ∈ (pieces sep cs).dropLast) : piece ++ [sep] <:+: cs := by
  induction cs using pieces_induction sep with
  | single cs hcs => simp [pieces_of_notMem hcs] at h
  | cut first cs hfirst ih =>
    rw [pieces_piece_append hfirst, List.dropLast_cons_of_ne_nil (pieces_ne_nil sep cs)] at h
    rcases List.mem_cons.mp h with rfl | h
    · exact ⟨[], cs, by simp⟩
    · exact (ih h).trans ⟨first ++ [sep], [], by simp⟩

/-- Every piece is an infix of the text. -/
theorem infix_of_mem_pieces {sep : Char} {cs piece : List Char} (h : piece ∈ pieces sep cs) :
    piece <:+: cs := by
  induction cs using pieces_induction sep with
  | single cs hcs =>
    rw [pieces_of_notMem hcs, List.mem_singleton] at h
    exact h ▸ List.infix_rfl
  | cut first cs hfirst ih =>
    rw [pieces_piece_append hfirst] at h
    rcases List.mem_cons.mp h with rfl | h
    · exact ⟨[], sep :: cs, by simp⟩
    · exact (ih h).trans ⟨first ++ [sep], [], by simp⟩

end Text

namespace Glob

/-- The characters that an escaped text has between brackets. -/
def special : List Char := ['?', '*', '[', ']']

/-- A character is escaped by brackets if it is special. -/
theorem escape_cons (c : Char) (cs : List Char) :
    escape (c :: cs) = (if c ∈ special then ['[', c, ']'] else [c]) ++ escape cs := by
  simp [escape, special, or_assoc]

end Glob

/-! ### Components -/

namespace Walk

/-- A component of a pattern is a piece between its slashes. -/
theorem mem_pieces_of_mem_components {cs part : List Char} (h : part ∈ components cs) :
    part ∈ Text.pieces '/' cs := by
  unfold components at h
  dsimp only at h
  split at h
  · exact List.dropLast_subset _ h
  · exact h

private theorem mem_components {cs part : List Char} (h : part ∈ Text.pieces '/' cs)
    (hne : part ≠ []) :
    part ∈ components cs := by
  unfold components
  dsimp only
  split
  · next hlast =>
    obtain ⟨init, hinit⟩ := List.getLast?_eq_some_iff.mp hlast
    rw [hinit] at h ⊢
    rw [List.dropLast_concat]
    simpa [hne] using h
  · exact h

/-- A pattern without the slash for the root. -/
def belowRoot : List Char → List Char
  | '/' :: rest => rest
  | cs => cs

/-- Where the walk of a pattern starts. -/
def start : List Char → String
  | '/' :: _ => "/"
  | _ => "."

/-- What stands below the root is the end of the pattern. -/
theorem suffix_belowRoot (cs : List Char) : belowRoot cs <:+ cs := by
  unfold belowRoot
  split
  · exact List.suffix_cons _ _
  · exact List.suffix_rfl

/-- A piece that is not empty is a component below the root. -/
theorem mem_components_belowRoot {cs part : List Char} (h : part ∈ Text.pieces '/' cs)
    (hne : part ≠ []) : part ∈ components (belowRoot cs) := by
  refine mem_components ?_ hne
  unfold belowRoot
  split
  · next rest =>
    rw [Text.pieces_cons_self] at h
    exact List.mem_of_ne_of_mem hne h
  · exact h

/-- A pattern is read as a whole and by components before anything is looked up. -/
theorem expand_eq (w : Workspace) (pattern : List Char) : expand w pattern =
    (Glob.parse pattern >>= fun _ => (components (belowRoot pattern)).mapM Glob.parse >>= fun cs =>
      if pattern.getLast? = some '/' then .ok []
      else .ok ((paths w cs (start pattern)).filter w.isFile)) := by
  unfold expand
  cases Glob.parse pattern with
  | error fault => rfl
  | ok parts => cases pattern with
    | nil => rfl
    | cons c rest =>
      by_cases hroot : c = '/'
      · subst hroot
        rfl
      · simp [belowRoot, start, hroot, bind, Except.bind, pure, Except.pure]

private theorem map_cons_eq_ok {g : Glob} {result : Except PatternFault (List Glob)}
    {gs : List Glob}
    (h : result.map (g :: ·) = .ok gs) : ∃ rest, result = .ok rest ∧ gs = g :: rest := by
  cases result with
  | error fault => cases h
  | ok rest => exact ⟨rest, rfl, (Except.ok.inj h).symm⟩

/-- A pattern that starts with anything but a character has a wildcard. -/
theorem literal?_of_wild {g : Glob} (hg : ∀ c, g ≠ .literal c)
    {result : Except PatternFault (List Glob)} {gs : List Glob}
    (h : result.map (g :: ·) = .ok gs) : Glob.literal? gs = none := by
  obtain ⟨rest, -, rfl⟩ := map_cons_eq_ok h
  cases g with
  | literal c => exact absurd rfl (hg c)
  | _ => rfl

private theorem ne_literal_of_set? {cs after : List Char} {g : Glob}
    (h : Glob.set? cs = some (g, after))
    (c : Char) : g ≠ .literal c := by
  rintro rfl
  unfold Glob.set? at h
  split at h <;> simp at h

/-- A name that a pattern without wildcards stands for is written in the pattern. -/
theorem mem_of_literal? {fuel : Nat} {before : Option Char} {cs : List Char} {gs : List Glob}
    {name : List Char} (h : Glob.read fuel before cs = .ok gs)
    (hname : Glob.literal? gs = some name) : ∀ c ∈ name, c ∈ cs := by
  fun_induction Glob.read fuel before cs generalizing gs name with
  | case1 | case2 =>
    cases h
    cases hname
    simp
  | case3 | case6 | case7 | case9 => cases h
  | case4 =>
    cases h
    cases hname
  | case5 | case8 | case11 =>
    rw [literal?_of_wild (by simp) h] at hname
    cases hname
  | case10 _ _ _ _ _ hset =>
    rw [literal?_of_wild (ne_literal_of_set? hset) h] at hname
    cases hname
  | case12 _ fuel c cs _ _ _ ih =>
    obtain ⟨rest, hrest, rfl⟩ := map_cons_eq_ok h
    obtain ⟨others, hothers, rfl⟩ := Option.map_eq_some_iff.mp hname
    intro d hd
    rcases List.mem_cons.mp hd with rfl | hd
    · exact List.mem_cons_self
    · exact List.mem_cons_of_mem c (ih hrest hothers d hd)

end Walk

namespace Sources

/-- The files that a pattern stands for, or its fault with the text of the pattern. -/
theorem expand_eq (s : Sources) (w : Workspace) (pattern : String) : s.expand w pattern =
    (firstMatch w (s.patterns pattern)).mapError fun fault =>
      .badPattern pattern fault.message := by
  unfold expand
  cases firstMatch w (s.patterns pattern) <;> rfl

end Sources

end PromptOutline
