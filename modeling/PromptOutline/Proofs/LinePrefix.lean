import PromptOutline.Proofs.Lookups
import PromptOutline.Proofs.Rereading

/-!
# Outlines that start with the same lines

The tokens of an outline come in the order of its lines, and the tokens of a line depend on the
lines before it alone. So outlines whose first lines are the same have the same tokens up to there,
and behind it no token of an earlier line and no name that belongs to one.
-/

namespace PromptOutline.Outline

variable {unit : Int} {fileName : String} {m : Margin} {number : Nat}

/-! ### The lines of tokens -/

/-- Marks that move the margin stand at the place of their line. -/
theorem eq_token_of_moved {margin : Nat} {p : Place} {column : Nat} {marks : List Token}
    (h : shift unit margin p column = .moved marks) :
    ∀ t ∈ marks, ∃ kind text, t = p.token kind text column := by
  unfold shift at h
  dsimp only at h
  split at h
  · cases h
    simp
  · split at h
    · cases h
    · cases h
      intro t ht
      rw [List.eq_of_mem_replicate ht]
      split <;> exact ⟨_, _, rfl⟩

/-- A mark for a rejected line stands at the place of the line. -/
theorem eq_token_of_rejected {margin : Nat} {p : Place} {column : Nat} {mark : Token}
    (h : shift unit margin p column = .rejected mark) :
    ∃ kind text, mark = p.token kind text column := by
  unfold shift at h
  dsimp only at h
  split at h
  · cases h
  · split at h
    · cases h
      split <;> exact ⟨_, _, rfl⟩
    · cases h

private theorem ContentReading.eq_token {p : Place} {column : Nat} {content : List Char}
    {r : Margin × List Token} (h : ContentReading unit m p column content r) :
    ∀ t ∈ r.2, ∃ kind text column, t = p.token kind text column := by
  have hmarks {marks : List Token} (hshift : shift unit m.column p column = .moved marks) :
      ∀ t ∈ marks, ∃ kind text column, t = p.token kind text column := fun t ht => by
    obtain ⟨kind, text, rfl⟩ := eq_token_of_moved hshift t ht
    exact ⟨kind, text, column, rfl⟩
  intro t ht
  cases h with
  | rejected hshift =>
    obtain ⟨kind, text, hmark⟩ := eq_token_of_rejected hshift
    exact ⟨kind, text, column, (List.mem_singleton.mp ht).trans hmark⟩
  | keyword _ hshift =>
    rcases List.mem_append.mp ht with ht | ht
    · exact hmarks hshift t ht
    · unfold keywordTokens at ht
      rcases List.mem_cons.mp ht with rfl | ht
      · exact ⟨_, _, _, rfl⟩
      · split at ht
        · cases ht
        · exact ⟨_, _, _, List.mem_singleton.mp ht⟩
  | kept => exact ⟨_, _, _, List.mem_singleton.mp ht⟩
  | text _ _ hshift =>
    rcases List.mem_append.mp ht with ht | ht
    · exact hmarks hshift t ht
    · exact ⟨_, _, _, List.mem_singleton.mp ht⟩

/-- The tokens of a line are cut from that line. -/
theorem LineReading.eq_token {p : Place} {r : Margin × List Token} (h : LineReading unit m p r) :
    ∀ t ∈ r.2, ∃ kind text column, t = p.token kind text column := by
  intro t ht
  cases h with
  | blank =>
    simp only [List.mem_ite_nil_right, List.mem_singleton] at ht
    exact ⟨_, _, _, ht.2⟩
  | comment => cases ht
  | tab _ hread =>
    rcases List.mem_cons.mp ht with rfl | ht
    · exact ⟨_, _, _, rfl⟩
    · exact hread.eq_token t ht
  | content _ _ _ hread => exact hread.eq_token t ht

/-- Tokens in the order of their lines. -/
def Ascending (ts : List Token) : Prop := ts.Pairwise fun a b => a.line ≤ b.line

/-- The tokens of a line bear its number. -/
theorem line_of_mem_readLine {line : List Char} {t : Token}
    (ht : t ∈ (readLine unit m { fileName, number, line }).2) : t.line = number := by
  obtain ⟨kind, text, column, rfl⟩ := (readLine_reading unit m _).eq_token t ht
  rfl

/-- The tokens of some lines bear the numbers of these lines. -/
theorem line_of_mem_readLines {ls : List (List Char)} {t : Token}
    (ht : t ∈ (readLines unit fileName m number ls).2) :
    number ≤ t.line ∧ t.line < number + ls.length := by
  induction ls generalizing m number with
  | nil => cases ht
  | cons line ls ih =>
    rw [readLines] at ht
    rw [List.length_cons]
    rcases List.mem_append.mp ht with ht | ht
    · have hline := line_of_mem_readLine ht
      omega
    · have hlines := ih ht
      omega

private theorem ascending_readLines (ls : List (List Char)) :
    Ascending (readLines unit fileName m number ls).2 := by
  induction ls generalizing m number with
  | nil => exact .nil
  | cons line ls ih =>
    rw [readLines]
    refine List.pairwise_append.mpr ⟨List.pairwise_of_forall_mem_list fun a ha b hb => ?_, ih, ?_⟩
    · rw [line_of_mem_readLine ha, line_of_mem_readLine hb]
    · intro a ha b hb
      rw [line_of_mem_readLine ha]
      exact Nat.le_of_succ_le (line_of_mem_readLines hb).1

/-- The marks that close the lines bear the number they were made with. -/
theorem line_of_mem_closingMarks {width column : Nat} {t : Token}
    (ht : t ∈ closingMarks width fileName number column) : t.line = number := by
  fun_induction closingMarks width fileName number column with
  | case1 column _ ih =>
    rcases List.mem_cons.mp ht with rfl | ht
    · rfl
    · exact ih ht
  | case2 => cases ht

/-- What stands behind lines that were read up to a margin: the marks that close blocks and the mark
for the end. -/
def closing (width : UInt64) (fileName : String) (number : Nat) (m : Margin) : List Token :=
  closingMarks (atLeastOne width).toNat fileName number m.column ++
    [Token.endOfFile fileName number]

/-- The tokens of an outline are those of its lines, and behind them those that close it. -/
theorem tokens_eq_closing (width : UInt64) (fileName source : String) :
    tokens width fileName source =
      (readLines (signedUnit width) fileName {} 1 (Text.lines source.toList)).2 ++
        closing width fileName ((Text.lines source.toList).length + 1)
          (readLines (signedUnit width) fileName {} 1 (Text.lines source.toList)).1 := by
  rw [tokens_eq_content, content, closing, List.append_assoc]

/-- What closes an outline bears the number behind its lines, and is no name. -/
theorem mem_closing {width : UInt64} {t : Token} (ht : t ∈ closing width fileName number m) :
    t.line = number ∧ t.kind ≠ .keywordText := by
  rcases List.mem_append.mp ht with ht | ht
  · exact ⟨line_of_mem_closingMarks ht, by simp [kind_of_mem_closingMarks ht]⟩
  · rw [List.mem_singleton.mp ht]
    exact ⟨rfl, by simp [Token.endOfFile]⟩

/-- The tokens of an outline come in the order of their lines. -/
theorem ascending_tokens (width : UInt64) (fileName source : String) :
    Ascending (tokens width fileName source) := by
  rw [tokens_eq_closing]
  refine List.pairwise_append.mpr ⟨ascending_readLines _,
    List.pairwise_of_forall_mem_list fun a ha b hb => ?_, fun a ha b hb => ?_⟩
  · rw [(mem_closing ha).1, (mem_closing hb).1]
  · rw [(mem_closing hb).1]
    have hlines := line_of_mem_readLines ha
    omega

/-! ### The same first lines -/

/-- `SameUpTo n ts us`: the tokens `ts` and `us` are the same up to a point, behind which no token
of `ts` stands on the first `n` lines, and what follows there starts with no name. -/
def SameUpTo (n : Nat) (ts us : List Token) : Prop :=
  ∃ shared rest rest', ts = shared ++ rest ∧ us = shared ++ rest' ∧ Stream.Nameless rest ∧
    Stream.Nameless rest' ∧ ∀ t ∈ rest, n < t.line

/-- The tokens of lines behind the first `n` ones start with no name and stand on later lines. -/
theorem rest_of_readLines (unit : Int) (width : UInt64) (fileName : String) (m : Margin)
    (number : Nat) (ls : List (List Char)) :
    let r := readLines unit fileName m number ls
    let rest := r.2 ++ closing width fileName (number + ls.length) r.1
    Stream.Nameless rest ∧ ∀ t ∈ rest, number ≤ t.line := by
  refine ⟨?_, fun t ht => ?_⟩
  · have hguarded : Guarded (·.kind = .keywordText) IsKeyword
        (closing width fileName (number + ls.length) (readLines unit fileName m number ls).1) :=
      .of_forall fun t ht => (mem_closing ht).2
    exact ((guarded_readLines unit fileName m number ls).append hguarded).head
  · rcases List.mem_append.mp ht with ht | ht
    · exact (line_of_mem_readLines ht).1
    · rw [(mem_closing ht).1]
      exact Nat.le_add_right ..

/-- Outlines with the same first lines have the same tokens up to there. -/
theorem sameUpTo_tokens {source source' : String} {n : Nat} (width : UInt64) (fileName : String)
    (h : (Text.lines source.toList).take n = (Text.lines source'.toList).take n) :
    SameUpTo n (tokens width fileName source) (tokens width fileName source') := by
  rw [tokens_eq_closing, tokens_eq_closing]
  generalize Text.lines source.toList = ls at h
  generalize Text.lines source'.toList = ls' at h
  by_cases hn : n ≤ ls.length
  · have hlength : (ls.take n).length = n := List.length_take_of_le hn
    have hn' : n ≤ ls'.length := by
      rw [h, List.length_take] at hlength
      omega
    -- cut both outlines behind the first lines
    have hcut (ls : List (List Char)) (hn : n ≤ ls.length) :
        ∃ rest, Stream.Nameless rest ∧ (∀ t ∈ rest, n < t.line) ∧
          (readLines (signedUnit width) fileName {} 1 ls).2 ++ closing width fileName
            (ls.length + 1) (readLines (signedUnit width) fileName {} 1 ls).1 =
          (readLines (signedUnit width) fileName {} 1 (ls.take n)).2 ++ rest := by
      have hboth := readLines_append
        (rfl : readLines (signedUnit width) fileName {} 1 (ls.take n) = (_, _))
        (rfl : readLines (signedUnit width) fileName _ _ (ls.drop n) = (_, _))
      rw [List.take_append_drop, List.length_take_of_le hn] at hboth
      rw [hboth]
      have hlast : ls.length + 1 = 1 + n + (ls.drop n).length := by
        rw [List.length_drop]
        omega
      obtain ⟨hnameless, hlater⟩ := rest_of_readLines (signedUnit width) width fileName
        (readLines (signedUnit width) fileName {} 1 (ls.take n)).1 (1 + n) (ls.drop n)
      rw [hlast]
      refine ⟨_, hnameless, fun t ht => ?_, List.append_assoc ..⟩
      have hline := hlater t ht
      omega
    obtain ⟨rest, hrest, hlater, heq⟩ := hcut ls hn
    obtain ⟨rest', hrest', -, heq'⟩ := hcut ls' hn'
    exact ⟨_, rest, rest', heq, by rw [heq', h], hrest, hrest', hlater⟩
  · -- there are fewer lines, and all of them are the same
    have hle : ls.length ≤ n := Nat.le_of_not_le hn
    have hle' : ls'.length ≤ n := by
      have hlength := congrArg List.length h
      simp only [List.length_take] at hlength
      omega
    rw [List.take_of_length_le hle, List.take_of_length_le hle'] at h
    subst h
    exact ⟨_, [], [], (List.append_nil _).symm, (List.append_nil _).symm, Stream.nameless_nil,
      Stream.nameless_nil, by simp⟩

end PromptOutline.Outline
