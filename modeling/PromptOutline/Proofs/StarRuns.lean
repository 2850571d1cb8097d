import Mathlib.Data.List.Chain
import Mathlib.Data.List.TakeDrop
import PromptOutline.Proofs.Patterns

/-!
# Runs of stars

A run of stars stands for what a single star stands for, and makes no pattern invalid, unless it
stands before a slash: a component of two stars there stands for directories, and one that only ends
in two stars is refused.
-/

namespace PromptOutline

namespace Glob

/-! ### Single stars -/

/-- No two stars stand next to one another. -/
def Single (cs : List Char) : Prop := cs.IsChain fun a b => a = '*' → b ≠ '*'

private theorem Single.part {cs part : List Char} (h : Single cs) (hpart : part <:+: cs) :
    Single part :=
  List.IsChain.infix h hpart

private theorem Single.tail {c : Char} {cs : List Char} (h : Single (c :: cs)) : Single cs :=
  h.part (List.infix_cons List.infix_rfl)

private theorem not_single (cs : List Char) : ¬ Single ('*' :: '*' :: cs) :=
  fun h => (List.isChain_cons_cons.mp h).1 rfl rfl

private theorem head?_collapseStars (cs : List Char) : (collapseStars cs).head? = cs.head? := by
  fun_induction collapseStars cs with
  | case1 rest ih => exact ih
  | case2 => rfl
  | case3 => rfl

private theorem single_collapseStars (cs : List Char) : Single (collapseStars cs) := by
  fun_induction collapseStars cs with
  | case1 rest ih => exact ih
  | case2 c rest hrest ih =>
    refine List.isChain_cons.mpr ⟨fun d hd hc hstar => ?_, ih⟩
    rw [head?_collapseStars, Option.mem_def, List.head?_eq_some_iff] at hd
    obtain ⟨others, rfl⟩ := hd
    exact hrest others hc (hstar ▸ rfl)
  | case3 => exact .nil

/-- Without a run of stars there is nothing to collapse. -/
theorem collapseStars_of_single {cs : List Char} (h : Single cs) : collapseStars cs = cs := by
  fun_induction collapseStars cs with
  | case1 rest => exact absurd h (not_single rest)
  | case2 c rest _ ih => rw [ih h.tail]
  | case3 => rfl

/-- A pattern with every run of stars made a single star. -/
def singleStars (pattern : String) : String := String.ofList (collapseStars pattern.toList)

private theorem single_escape (cs : List Char) : Single (escape cs) := by
  induction cs with
  | nil => exact .nil
  | cons c cs ih =>
    rw [escape_cons]
    refine List.isChain_append.mpr ⟨?_, ih, ?_⟩
    · split <;> simp
    · split
      · simp
      · next hplain =>
        have hstar : c ≠ '*' := fun hc => hplain (by simp [hc, special])
        simp [hstar]

/-! ### Reading single stars -/

/-- A pattern that was read without a component for directories, or refused for its brackets. -/
def Shallow (result : Except PatternFault (List Glob)) : Prop :=
  match result with
  | .ok gs => anyDirectories ∉ gs
  | .error fault => fault = .badBrackets

private theorem Shallow.cons {g : Glob} (hg : g ≠ anyDirectories)
    {result : Except PatternFault (List Glob)} (h : Shallow result) :
    Shallow (result.map (g :: ·)) := by
  cases result with
  | error fault => exact h
  | ok gs => exact List.not_mem_cons_of_ne_of_not_mem hg.symm h

/-- What follows a set follows its closing bracket. -/
theorem eq_append_of_set? {cs after : List Char} {g : Glob} (h : set? cs = some (g, after)) :
    g ≠ anyDirectories ∧ ∃ body, cs = body ++ ']' :: after := by
  have hbracketed {cs body after : List Char} (h : bracketed? cs = some (body, after)) :
      cs = body ++ ']' :: after := by
    unfold bracketed? at h
    split at h
    · cases h
    · next first rest =>
      split at h
      · next inner c others hspan =>
        rw [List.span_eq_takeWhile_dropWhile, Prod.mk.injEq] at hspan
        cases h
        have hc := List.head?_dropWhile_not (· ≠ ']') rest
        rw [hspan.2] at hc
        have hbracket : c = ']' := by simpa using hc
        rw [← hbracket, List.cons_append, ← hspan.2, ← hspan.1, List.takeWhile_append_dropWhile]
      · cases h
  unfold set? at h
  split at h
  · obtain ⟨⟨body, after⟩, hb, he⟩ := Option.map_eq_some_iff.mp h
    cases he
    exact ⟨by simp, '!' :: body, by rw [hbracketed hb]; rfl⟩
  · obtain ⟨⟨body, after⟩, hb, he⟩ := Option.map_eq_some_iff.mp h
    cases he
    exact ⟨by simp, body, hbracketed hb⟩

private theorem shallow_read {fuel : Nat} {before : Option Char} {cs : List Char} (h : Single cs) :
    Shallow (read fuel before cs) := by
  fun_induction read fuel before cs with
  | case1 | case2 => simp [Shallow]
  | case3 | case4 | case5 | case6 | case7 => exact absurd h (not_single _)
  | case8 _ _ _ _ _ ih => exact (ih h.tail).cons (by simp)
  | case9 => rfl
  | case10 _ _ rest _ _ hset ih =>
    obtain ⟨hg, body, rfl⟩ := eq_append_of_set? hset
    exact (ih (h.part ⟨'[' :: body ++ [']'], [], by simp⟩)).cons hg
  | case11 _ _ _ ih => exact (ih h.tail).cons (by simp)
  | case12 _ _ _ _ _ _ _ ih => exact (ih h.tail).cons (by simp)

/-! ### Stars at the end of a component -/

private theorem suffix_of_cons {c : Char} {cs : List Char} (h : ['*', '*'] <:+ c :: cs)
    (hne : c :: cs ≠ ['*', '*']) : ['*', '*'] <:+ cs :=
  (List.suffix_cons_iff.mp h).resolve_left hne.symm

/-- Stars at the end of a text stand behind a bracket in it. -/
theorem suffix_of_append {body after : List Char} (h : ['*', '*'] <:+ body ++ ']' :: after) :
    ['*', '*'] <:+ after := by
  have hbehind : ']' :: after <:+ body ++ ']' :: after := List.suffix_append ..
  rcases Nat.lt_or_ge after.length 2 with hshort | hlong
  · have hwithin : ']' :: after <:+ ['*', '*'] :=
      List.suffix_of_suffix_length_le hbehind h (by simpa using Nat.le_of_lt_succ hshort)
    have hbracket := hwithin.subset List.mem_cons_self
    simp at hbracket
  · exact List.suffix_of_suffix_length_le h ((List.suffix_cons ..).trans hbehind) hlong

/-- A component that ends in two stars, with something before them, cannot be read. -/
theorem exists_read_eq_error {fuel : Nat} {before : Option Char} {cs : List Char}
    (hfuel : cs.length < fuel) (hslash : '/' ∉ cs) (hstars : ['*', '*'] <:+ cs)
    (halone : cs = ['*', '*'] → ∃ c, before = some c ∧ c ≠ '/') :
    ∃ fault, read fuel before cs = .error fault := by
  have hmap {g : Glob} {result : Except PatternFault (List Glob)}
      (h : ∃ fault, result = .error fault) : ∃ fault, result.map (g :: ·) = .error fault := by
    obtain ⟨fault, rfl⟩ := h
    exact ⟨fault, rfl⟩
  fun_induction read fuel before cs with
  | case1 => cases hfuel
  | case2 => simp at hstars
  | case3 | case6 | case7 | case9 => exact ⟨_, rfl⟩
  | case4 _ before hbefore =>
    obtain ⟨c, rfl, hc⟩ := halone rfl
    exact absurd (by simpa using hbefore) hc
  | case5 => simp at hslash
  | case8 fuel _ rest _ hone ih =>
    refine hmap (ih (by simpa using hfuel) (fun h => hslash (List.mem_cons_of_mem _ h))
      (suffix_of_cons hstars fun he => ?_) fun _ => ⟨'*', rfl, by decide⟩)
    exact hone [] (List.cons.inj he).2
  | case10 fuel _ rest _ after hset ih =>
    obtain ⟨-, body, rfl⟩ := eq_append_of_set? hset
    refine hmap (ih ?_ (fun h => hslash (by simp [h]))
      (suffix_of_append (suffix_of_cons hstars (by simp))) fun _ => ⟨']', rfl, by decide⟩)
    simp only [List.length_cons, List.length_append] at hfuel
    omega
  | case11 fuel _ rest ih =>
    exact hmap (ih (by simpa using hfuel) (fun h => hslash (List.mem_cons_of_mem _ h))
      (suffix_of_cons hstars (by simp)) fun _ => ⟨'?', rfl, by decide⟩)
  | case12 _ fuel c cs hstar _ _ ih =>
    refine hmap (ih (by simpa using hfuel) (fun h => hslash (List.mem_cons_of_mem _ h))
      (suffix_of_cons hstars fun he => hstar (List.cons.inj he).1)
      fun _ => ⟨c, rfl, fun hc => hslash (by simp [hc])⟩)

private theorem occursIn_iff_exists {cs : List Char} : Text.occursIn "**/".toList cs = true ↔
    ∃ part ∈ (Text.pieces '/' cs).dropLast, ['*', '*'] <:+ part := by
  rw [Text.occursIn_iff]
  constructor
  · rintro ⟨front, back, rfl⟩
    obtain ⟨init, last, -, hpieces⟩ :=
      Text.pieces_append_of_notMem (show '/' ∉ ['*', '*'] by decide) front
    refine ⟨last ++ ['*', '*'], ?_, List.suffix_append ..⟩
    rw [show front ++ "**/".toList ++ back = (front ++ ['*', '*']) ++ '/' :: back by simp,
      Text.pieces_append, hpieces, List.dropLast_append_of_ne_nil (Text.pieces_ne_nil _ _)]
    simp
  · rintro ⟨part, hpart, front, rfl⟩
    refine List.IsInfix.trans ⟨front, [], ?_⟩ (Text.infix_of_mem_dropLast hpart)
    simp

end Glob

/-! ### Patterns without runs of stars -/

namespace Walk

variable {w : Workspace} {pattern : List Char} {fault : PatternFault}

private theorem single_of_mem_components (h : Glob.Single pattern) {part : List Char}
    (hpart : part ∈ components (belowRoot pattern)) : Glob.Single part :=
  h.part <| (Text.infix_of_mem_pieces (mem_pieces_of_mem_components hpart)).trans
    (suffix_belowRoot pattern).isInfix

/-- A pattern of single stars is refused for its brackets only. -/
theorem eq_badBrackets_of_single (h : Glob.Single pattern)
    (herror : expand w pattern = .error fault) :
    fault = .badBrackets := by
  have hshallow {cs : List Char} (hcs : Glob.Single cs) (hfault : Glob.parse cs = .error fault) :
      fault = .badBrackets := by
    have hread : Glob.Shallow (Glob.parse cs) := Glob.shallow_read hcs
    rwa [hfault] at hread
  rw [expand_eq] at herror
  cases hparse : Glob.parse pattern with
  | error fault' =>
    rw [hparse] at herror
    cases herror
    exact hshallow h hparse
  | ok gs =>
    cases hcs : (components (belowRoot pattern)).mapM Glob.parse with
    | error fault' =>
      rw [hparse, hcs] at herror
      cases herror
      obtain ⟨part, hpart, hfault⟩ := exists_of_mapM_eq_error hcs
      exact hshallow (single_of_mem_components h hpart) hfault
    | ok cs =>
      rw [hparse, hcs] at herror
      change (if _ then _ else _) = _ at herror
      split at herror <;> cases herror

/-- No component of a pattern of single stars stands for directories. -/
theorem isDeep_of_single (h : Glob.Single pattern) {part : List Char}
    (hpart : part ∈ components (belowRoot pattern)) {c : Component}
    (hc : Glob.parse part = .ok c) : isDeep c = false := by
  have hread : Glob.Shallow (Glob.parse part) :=
    Glob.shallow_read (single_of_mem_components h hpart)
  rw [hc] at hread
  simpa [isDeep] using show Glob.anyDirectories ∉ c from hread

/-- A pattern with a component that a slash follows and that only ends in two stars is refused. -/
theorem exists_expand_eq_error {part : List Char}
    (hpart : part ∈ (Text.pieces '/' pattern).dropLast)
    (hstars : ['*', '*'] <:+ part) (hmore : part ≠ ['*', '*']) :
    ∃ fault, ∀ w, expand w pattern = .error fault := by
  have hpiece := List.dropLast_subset _ hpart
  have hslash : '/' ∉ part := fun h => (Text.mem_of_mem_pieces hpiece h).2 rfl
  obtain ⟨fault, hfault⟩ : ∃ fault, Glob.parse part = .error fault :=
    Glob.exists_read_eq_error (Nat.lt_succ_self part.length) hslash hstars fun he => absurd he hmore
  have hne : part ≠ [] := fun he => by simp [he] at hstars
  obtain ⟨fault', hfault'⟩ := exists_mapM_eq_error (mem_components_belowRoot hpiece hne) hfault
  cases hparse : Glob.parse pattern with
  | error fault =>
    refine ⟨fault, fun w => ?_⟩
    rw [expand_eq, hparse]
    rfl
  | ok gs =>
    refine ⟨fault', fun w => ?_⟩
    rw [expand_eq, hparse, hfault']
    rfl

end Walk

namespace Sources

variable {w : Workspace}

private theorem exists_of_firstMatch_eq_error {patterns : List (List Char)} {fault : PatternFault}
    (h : firstMatch w patterns = .error fault) :
    ∃ pattern ∈ patterns, Walk.expand w pattern = .error fault := by
  induction patterns with
  | nil => cases h
  | cons pattern rest ih =>
    rw [firstMatch] at h
    split at h
    · next hfault =>
      cases h
      exact ⟨pattern, List.mem_cons_self, hfault⟩
    · obtain ⟨other, hother, hfault⟩ := ih h
      exact ⟨other, List.mem_cons_of_mem pattern hother, hfault⟩
    · cases h

/-- Behind an escaped directory, single stars stay single. -/
theorem single_of_mem_patterns (s : Sources) {pattern : String}
    (h : Glob.Single (Glob.normalise pattern.toList)) :
    ∀ candidate ∈ s.patterns pattern, Glob.Single candidate := by
  intro candidate hcandidate
  rcases List.mem_cons.mp hcandidate with rfl | hcandidate
  · exact h
  · split at hcandidate
    · cases hcandidate
    · obtain ⟨directory, -, rfl⟩ := List.mem_map.mp hcandidate
      refine List.isChain_append.mpr ⟨?_, ?_, by simp⟩
      · exact (Glob.single_escape _).part (Text.dropTrailing_prefix ..).isInfix
      · exact List.isChain_cons.mpr ⟨by simp, h⟩

/-- The patterns tried for a pattern are those tried for it with single stars. -/
theorem patterns_singleStars {s : Sources} {pattern : String}
    (h : Glob.normalise pattern.toList = Glob.collapseStars pattern.toList) :
    s.patterns (Glob.singleStars pattern) = s.patterns pattern := by
  have hsingle := Glob.single_collapseStars pattern.toList
  have habsolute : Path.isAbsolute (Glob.singleStars pattern) = Path.isAbsolute pattern := by
    simp only [Path.isAbsolute, Glob.singleStars, String.toList_ofList, Glob.head?_collapseStars]
  have hnormal : Glob.normalise (Glob.singleStars pattern).toList =
      Glob.collapseStars pattern.toList := by
    simp only [Glob.normalise, Glob.singleStars, String.toList_ofList,
      Glob.collapseStars_of_single hsingle, ite_self]
  rw [patterns, patterns, h, hnormal, habsolute]

/-- A run of stars is a single star, unless a slash follows it. Take a pattern without a component
of just two stars before a slash. If no component before a slash ends in two stars either, the
pattern stands for the files that it stands for with single stars, or is refused for the same
reason; that reason is never a run of stars, and no component stands for directories. Otherwise it
is refused. -/
theorem star_runs (pattern : String)
    (h : ∀ part ∈ (Text.pieces '/' pattern.toList).dropLast, part ≠ ['*', '*']) :
    ((∀ part ∈ (Text.pieces '/' pattern.toList).dropLast, ¬ ['*', '*'] <:+ part) →
      ∀ (s : Sources) (w : Workspace),
        (∃ found : Except PatternFault (List String),
          s.expand w pattern = found.mapError (fun fault => .badPattern pattern fault.message) ∧
          s.expand w (Glob.singleStars pattern) = found.mapError (fun fault =>
            .badPattern (Glob.singleStars pattern) fault.message) ∧
          ∀ fault, found = .error fault → fault = .badBrackets) ∧
        ∀ candidate ∈ s.patterns pattern, ∀ part ∈ Walk.components (Walk.belowRoot candidate),
          ∀ c, Glob.parse part = .ok c → Walk.isDeep c = false) ∧
    ((∃ part ∈ (Text.pieces '/' pattern.toList).dropLast, ['*', '*'] <:+ part) →
      ∃ fault : PatternFault, ∀ (s : Sources) (w : Workspace),
        s.expand w pattern = .error (.badPattern pattern fault.message)) := by
  constructor
  · intro hends s w
    have hnormal : Glob.normalise pattern.toList = Glob.collapseStars pattern.toList := by
      rw [Glob.normalise, if_neg]
      rw [Glob.occursIn_iff_exists]
      rintro ⟨part, hpart, hstars⟩
      exact hends part hpart hstars
    have hsingle : Glob.Single (Glob.normalise pattern.toList) :=
      hnormal ▸ Glob.single_collapseStars _
    have hcandidates := s.single_of_mem_patterns hsingle
    refine ⟨⟨firstMatch w (s.patterns pattern), s.expand_eq w pattern, ?_, fun fault hfault => ?_⟩,
      fun candidate hcandidate part hpart c hc =>
        Walk.isDeep_of_single (hcandidates candidate hcandidate) hpart hc⟩
    · rw [expand_eq, patterns_singleStars hnormal]
    · obtain ⟨candidate, hcandidate, herror⟩ := exists_of_firstMatch_eq_error hfault
      exact Walk.eq_badBrackets_of_single (hcandidates candidate hcandidate) herror
  · rintro ⟨part, hpart, hstars⟩
    obtain ⟨fault, hfault⟩ := Walk.exists_expand_eq_error hpart hstars (h part hpart)
    have hnormal : Glob.normalise pattern.toList = pattern.toList :=
      if_pos (Glob.occursIn_iff_exists.mpr ⟨part, hpart, hstars⟩)
    refine ⟨fault, fun s w => ?_⟩
    rw [expand_eq, patterns, hnormal, firstMatch, hfault]
    rfl

/-- A directory with a note. -/
def docsWorkspace : Workspace where
  tree.entries :=
    [(["docs"], .directory), (["docs", "a.md"], .file (Text.Utf8.encode "# A\n"))]

/-- Runs of two and of three stars inside components. -/
theorem star_runs_docs :
    (∀ part ∈ (Text.pieces '/' "d**s/***.md".toList).dropLast,
      part ≠ ['*', '*'] ∧ ¬ ['*', '*'] <:+ part) ∧
      ({} : Sources).expand docsWorkspace "d**s/***.md" = .ok ["docs/a.md"] := by
  have hparts : ∀ part ∈ (Text.pieces '/' "d**s/***.md".toList).dropLast,
      part ≠ ['*', '*'] ∧ ¬ ['*', '*'] <:+ part := by decide
  refine ⟨hparts, ?_⟩
  obtain ⟨⟨found, hexpand, hsingle, -⟩, -⟩ := (star_runs "d**s/***.md" fun part hpart =>
    (hparts part hpart).1).1 (fun part hpart => (hparts part hpart).2) {} docsWorkspace
  have hfiles : ({} : Sources).expand docsWorkspace (Glob.singleStars "d**s/***.md") =
      .ok ["docs/a.md"] := by decide +kernel
  rw [hexpand]
  rw [hsingle] at hfiles
  cases found with
  | error fault => cases hfiles
  | ok paths =>
    cases hfiles
    rfl

/-- Two stars at the end of a component that a slash follows are not taken for one. -/
theorem stars_before_slash :
    ({} : Sources).expand docsWorkspace "d**/a.md" =
        .error (.badPattern "d**/a.md" PatternFault.starsNotAlone.message) ∧
      ({} : Sources).expand docsWorkspace (Glob.singleStars "d**/a.md") = .ok ["docs/a.md"] ∧
      ¬ ∀ (s : Sources) (w : Workspace) (pattern : String),
        (∀ part ∈ (Text.pieces '/' pattern.toList).dropLast, part ≠ ['*', '*']) →
          ∃ found : Except PatternFault (List String),
            s.expand w pattern = found.mapError (fun fault => .badPattern pattern fault.message) ∧
            s.expand w (Glob.singleStars pattern) = found.mapError (fun fault =>
              .badPattern (Glob.singleStars pattern) fault.message) := by
  have hrefused : ({} : Sources).expand docsWorkspace "d**/a.md" =
      .error (.badPattern "d**/a.md" PatternFault.starsNotAlone.message) := by decide +kernel
  have hsingle : ({} : Sources).expand docsWorkspace (Glob.singleStars "d**/a.md") =
      .ok ["docs/a.md"] := by decide +kernel
  refine ⟨hrefused, hsingle, fun h => ?_⟩
  obtain ⟨found, hfound, hfound'⟩ := h {} docsWorkspace "d**/a.md" (by decide)
  rw [hrefused] at hfound
  rw [hsingle] at hfound'
  cases found with
  | error fault => cases hfound'
  | ok paths => cases hfound

end Sources

end PromptOutline
