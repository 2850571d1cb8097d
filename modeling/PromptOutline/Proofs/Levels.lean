import PromptOutline.Proofs.Grammar
import PromptOutline.Proofs.LineTokens

/-!
# Levels and margins

Every line moves the margin by whole units and gives one mark for each of them. So the margin
stands right of the first column by as many units as the level that the marks so far lead to, and
the marks at the end of an outline lead back to level zero.
-/

namespace PromptOutline.Outline

open Grammar (level? level?_append level?_of_flat level?_of_indents level?_of_outdents)

/-! ### Shifts by whole units -/

/-- The mark for a level more. -/
def indentMark (p : Place) (column : Nat) : Token := p.token .indent "[Indent]" column

/-- The mark for a level less. -/
def outdentMark (p : Place) (column : Nat) : Token := p.token .outdent "[Outdent]" column

private theorem count_of_units {u : Nat} (hu : 0 < u) (n : Nat) :
    (((n * u : Nat) : Int).tdiv u).toNat = n := by
  rw [Int.natCast_mul, Int.mul_tdiv_cancel _ (by omega), Int.toNat_natCast]

/-- A line some units to the right is marked by as many indentations. -/
theorem shift_right {u : Nat} (hu : 0 < u) (margin n : Nat) (p : Place) :
    shift u margin p (margin + n * u) =
      .moved (List.replicate n (indentMark p (margin + n * u))) := by
  have hoffset : ((margin + n * u : Nat) : Int) - margin = (n * u : Nat) := by omega
  rcases Nat.eq_zero_or_pos n with rfl | hn
  · simp [shift]
  · have hpos : 0 < n * u := Nat.mul_pos hn hu
    simp only [shift, hoffset]
    rw [if_neg (by omega), if_neg (by simp), if_pos (by omega), Int.natAbs_natCast,
      count_of_units hu]
    rfl

/-- A line some units to the left is marked by as many outdentations. -/
theorem shift_left {u : Nat} (hu : 0 < u) (column n : Nat) (p : Place) :
    shift u (column + n * u) p column = .moved (List.replicate n (outdentMark p column)) := by
  have hoffset : (column : Int) - ((column + n * u : Nat) : Int) = -(n * u : Nat) := by omega
  rcases Nat.eq_zero_or_pos n with rfl | hn
  · simp [shift]
  · have hpos : 0 < n * u := Nat.mul_pos hn hu
    simp only [shift, hoffset]
    rw [if_neg (by omega), if_neg (by simp), if_neg (by omega), Int.natAbs_neg, Int.natAbs_natCast,
      count_of_units hu]
    rfl

/-- A line that moves the margin does so by whole units, to the right or to the left. -/
theorem moved_cases {u margin column : Nat} {p : Place} {marks : List Token} (hu : 0 < u)
    (h : shift u margin p column = .moved marks) :
    (∃ n, column = margin + n * u ∧ marks = List.replicate n (indentMark p column)) ∨
      (∃ n, margin = column + n * u ∧ marks = List.replicate n (outdentMark p column)) := by
  have hdvd : (u : Int) ∣ (column : Int) - margin := by
    unfold shift at h
    dsimp only at h
    split at h
    · next hzero => rw [hzero]; exact Int.dvd_zero _
    · split at h
      · cases h
      · next hmod => exact Int.dvd_of_tmod_eq_zero (not_not.mp hmod)
  rcases Nat.le_total margin column with hle | hle
  · obtain ⟨n, hn⟩ : u ∣ column - margin := by
      apply Int.natCast_dvd_natCast.mp
      rwa [Int.ofNat_sub hle]
    have hcolumn : column = margin + n * u := by rw [Nat.mul_comm] at hn; omega
    subst hcolumn
    rw [shift_right hu] at h
    cases h
    exact .inl ⟨n, rfl, rfl⟩
  · obtain ⟨n, hn⟩ : u ∣ margin - column := by
      apply Int.natCast_dvd_natCast.mp
      rw [Int.ofNat_sub hle, ← Int.neg_sub]
      exact Int.dvd_neg.mpr hdvd
    have hmargin : margin = column + n * u := by rw [Nat.mul_comm] at hn; omega
    subst hmargin
    rw [shift_left hu] at h
    cases h
    exact .inr ⟨n, rfl, rfl⟩

/-! ### The unit of a width -/

/-- The widths that distances are divided by as they are: those from 1 to 2^63 - 1. -/
def PlainWidth (width : UInt64) : Prop := 1 ≤ width.toNat ∧ width.toNat ≤ 0x7fffffffffffffff

/-- A plain width is at least one as it is. -/
theorem atLeastOne_eq {width : UInt64} (h : PlainWidth width) : atLeastOne width = width := by
  have hne : width ≠ 0 := by
    rintro rfl
    exact absurd h.1 (by decide)
  rw [atLeastOne, if_neg hne]

/-- A plain width is the unit of the margin. -/
theorem signedUnit_eq {width : UInt64} (h : PlainWidth width) : signedUnit width = width.toNat := by
  have hmax : 2 * width.toBitVec.toNat < 2 ^ 64 := by
    have hle := h.2
    rw [UInt64.toNat_toBitVec]
    omega
  rw [signedUnit, atLeastOne_eq h, Int64.toInt, UInt64.toBitVec_toInt64,
    BitVec.toInt_eq_toNat_of_lt hmax, UInt64.toNat_toBitVec]

/-! ### Levels along lines -/

/-- The marks of a line lead to the level that its column stands for. -/
theorem level?_moved {u k column : Nat} {p : Place} {marks : List Token} (hu : 0 < u)
    (hcolumn : 0 < column) (h : shift u (k * u + 1) p column = .moved marks) :
    ∃ l, level? k marks = some l ∧ column = l * u + 1 := by
  rcases moved_cases hu h with ⟨n, hn, rfl⟩ | ⟨n, hn, rfl⟩
  · refine ⟨k + n, ?_, by rw [hn, Nat.add_mul]; omega⟩
    have hkinds : ∀ t ∈ List.replicate n (indentMark p column), t.kind = .indent := fun t ht => by
      rw [List.eq_of_mem_replicate ht]
      rfl
    rw [level?_of_indents hkinds, List.length_replicate]
  · have hle : n ≤ k := by
      apply Nat.le_of_mul_le_mul_right _ hu
      omega
    refine ⟨k - n, ?_, ?_⟩
    · have hkinds : ∀ t ∈ List.replicate n (outdentMark p column), t.kind = .outdent :=
        fun t ht => by
          rw [List.eq_of_mem_replicate ht]
          rfl
      have hlevel := level?_of_outdents hkinds (k - n)
      rwa [List.length_replicate, Nat.sub_add_cancel hle] at hlevel
    · have hmul : n * u ≤ k * u := Nat.mul_le_mul_right u hle
      rw [Nat.sub_mul]
      omega

/-- Columns are counted from one. -/
theorem startColumn_pos (line : List Char) : 0 < startColumn line := Nat.succ_pos _

private theorem level?_keywordTokens {kind : TokenKind} {word rest : List Char} (p : Place)
    (column k : Nat) (hkind : Keyword.classify? word = some kind) :
    level? k (keywordTokens p column kind word rest) = some k := by
  apply level?_of_flat
  intro t ht
  rcases kinds_of_keywordTokens ht with he | he
  · rw [he]
    exact (ne_of_keyword hkind).2.2
  · simp [he]

private theorem ContentReading.level {u k : Nat} {m : Margin} {p : Place} {column : Nat}
    {content : List Char} {r : Margin × List Token} (hu : 0 < u) (hm : m.column = k * u + 1)
    (hcolumn : 0 < column) (h : ContentReading u m p column content r) :
    ∃ l, level? k r.2 = some l ∧ r.1.column = l * u + 1 := by
  cases h with
  | rejected hshift =>
    refine ⟨k, level?_of_flat ?_ k, hm⟩
    intro t ht
    rw [List.mem_singleton.mp ht]
    rcases kind_of_rejected hshift with he | he <;> simp [he]
  | keyword hkind hshift =>
    rw [hm] at hshift
    obtain ⟨l, hl, hcol⟩ := level?_moved hu hcolumn hshift
    refine ⟨l, ?_, hcol⟩
    rw [level?_append, hl, Option.bind_some, level?_keywordTokens p column l hkind]
  | kept => exact ⟨k, level?_of_flat (by simp [textToken, Place.token]) k, hm⟩
  | text _ _ hshift =>
    rw [hm] at hshift
    obtain ⟨l, hl, hcol⟩ := level?_moved hu hcolumn hshift
    refine ⟨l, ?_, hcol⟩
    rw [level?_append, hl, Option.bind_some]
    exact level?_of_flat (by simp [textToken, Place.token]) l

/-- A line leads from the level of one margin to the level of the next. -/
theorem LineReading.level {u k : Nat} {m : Margin} {p : Place} {r : Margin × List Token}
    (hu : 0 < u) (hm : m.column = k * u + 1) (h : LineReading u m p r) :
    ∃ l, level? k r.2 = some l ∧ r.1.column = l * u + 1 := by
  cases h with
  | blank =>
    refine ⟨k, level?_of_flat ?_ k, hm⟩
    intro t ht
    simp only [List.mem_ite_nil_right, List.mem_singleton] at ht
    simp [ht.2, Place.token]
  | comment => exact ⟨k, rfl, hm⟩
  | tab _ hread =>
    obtain ⟨l, hl, hcol⟩ := hread.level hu hm (startColumn_pos p.line)
    exact ⟨l, hl, hcol⟩
  | content _ _ _ hread => exact hread.level hu hm (startColumn_pos p.line)

/-- The margin stands right of the first column by as many units as the level of the tokens. -/
theorem level?_readLines {u : Nat} (hu : 0 < u) (fileName : String) (number : Nat)
    (lines : List (List Char)) :
    ∃ k, level? 0 (readLines u fileName {} number lines).2 = some k ∧
      (readLines u fileName {} number lines).1.column = k * u + 1 := by
  refine readLines_invariant
    (fun _ m ts => ∃ k, level? 0 ts = some k ∧ m.column = k * u + 1) ⟨0, rfl, by simp⟩ ?_
  rintro line _ number seen m ts r ⟨k, hk, hm⟩ hread
  obtain ⟨l, hl, hcol⟩ := hread.level hu hm
  exact ⟨l, by rw [level?_append, hk, Option.bind_some, hl], hcol⟩

/-- As many marks close the lines as the margin lies units behind the first column. -/
theorem length_closingMarks {u : Nat} (hu : 0 < u) (fileName : String) (number k : Nat) :
    (closingMarks u fileName number (k * u + 1)).length = k := by
  induction k with
  | zero =>
    rw [closingMarks, dif_neg (by simp)]
    rfl
  | succ k ih =>
    have hpos : 0 < (k + 1) * u := Nat.mul_pos (Nat.succ_pos k) hu
    have hnext : max ((k + 1) * u + 1 - u) 1 = k * u + 1 := by
      rw [Nat.add_mul]
      omega
    rw [closingMarks, dif_pos ⟨by omega, hu⟩, hnext, List.length_cons, ih]

private theorem level?_closingMarks {u : Nat} (hu : 0 < u) (fileName : String) (number k : Nat) :
    level? k (closingMarks u fileName number (k * u + 1)) = some 0 := by
  have hkinds : ∀ t ∈ closingMarks u fileName number (k * u + 1), t.kind = .outdent :=
    fun t ht => kind_of_mem_closingMarks ht
  have hlevel := level?_of_outdents hkinds 0
  rwa [length_closingMarks hu, Nat.zero_add] at hlevel

/-- The marks of an outline lead back to level zero. -/
theorem level?_content {width : UInt64} (hwidth : PlainWidth width) (fileName source : String) :
    level? 0 (content width fileName source) = some 0 := by
  unfold content
  rw [signedUnit_eq hwidth, atLeastOne_eq hwidth]
  obtain ⟨k, hk, hcol⟩ := level?_readLines hwidth.1 fileName 1 (Text.lines source.toList)
  rw [level?_append, hk, Option.bind_some, hcol]
  exact level?_closingMarks hwidth.1 fileName _ k

end PromptOutline.Outline
