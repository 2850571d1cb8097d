import Mathlib.Data.List.DropRight
import Mathlib.Data.List.TakeDrop
import PromptOutline.Json.Reader

/-!
# Reading what was written

Whatever is written as JSON, on one line or over several, is read as the same value. A text is read
as a value wherever it stands: with enough steps allowed, and before anything that does not go on
with a number. There is one lemma of this kind for each kind of value, and each of the two ways to
write is covered by an induction over values.

A number that is no natural one is kept as it was written, and nothing is said about it here.
-/

namespace PromptOutline.Json

/-! ### Blanks -/

/-- A text of blanks. -/
def Blank (cs : List Char) : Prop := ∀ c ∈ cs, isSpace c = true

private theorem skipSpace_append {gap : List Char} (h : Blank gap) (cs : List Char) :
    skipSpace (gap ++ cs) = skipSpace cs :=
  List.dropWhile_append_of_pos h

private theorem skipSpace_cons {c : Char} (h : isSpace c = false) (cs : List Char) :
    skipSpace (c :: cs) = c :: cs :=
  List.dropWhile_cons_of_neg (by simp [h])

private theorem skipSpace_idem (cs : List Char) : skipSpace (skipSpace cs) = skipSpace cs :=
  List.dropWhile_idempotent _ cs

private theorem blank_newLine (level : Nat) : Blank (newLine level).toList := by
  intro c hc
  simp only [newLine, String.toList_ofList, List.mem_cons, List.mem_replicate] at hc
  rcases hc with rfl | ⟨-, rfl⟩ <;> rfl

private theorem readValue_skipSpace (fuel : Nat) (cs : List Char) :
    readValue fuel (skipSpace cs) = readValue fuel cs := by
  cases fuel with
  | zero => simp only [readValue]
  | succ fuel => rw [readValue, skipSpace_idem, readValue]

private theorem readValue_blank {gap : List Char} (h : Blank gap) (fuel : Nat) (cs : List Char) :
    readValue fuel (gap ++ cs) = readValue fuel cs := by
  rw [← readValue_skipSpace, skipSpace_append h, readValue_skipSpace]

private theorem readItems_skipSpace (fuel : Nat) (cs : List Char) :
    readItems fuel (skipSpace cs) = readItems fuel cs := by
  cases fuel with
  | zero => simp only [readItems]
  | succ fuel => rw [readItems, readValue_skipSpace, readItems]

private theorem readFields_skipSpace (fuel : Nat) (cs : List Char) :
    readFields fuel (skipSpace cs) = readFields fuel cs := by
  cases fuel with
  | zero => simp only [readFields]
  | succ fuel => rw [readFields, skipSpace_idem, readFields]

/-! ### Quoted texts -/

private theorem hexValue?_hexDigit : ∀ n < 16, hexValue? (hexDigit n) = some n := by decide

private theorem hexUnit?_control {n : Nat} (hn : n < 0x20) (rest : List Char) :
    hexUnit? ('0' :: '0' :: hexDigit (n / 16) :: hexDigit (n % 16) :: rest) = some (n, rest) := by
  have hzero : hexValue? '0' = some 0 := by decide
  have hhigh := hexValue?_hexDigit (n / 16) (by omega)
  have hlow := hexValue?_hexDigit (n % 16) (by omega)
  have hsum : 0 * 4096 + 0 * 256 + n / 16 * 16 + n % 16 = n := by omega
  simp only [hexUnit?, hzero, hhigh, hlow, Option.bind_eq_bind, Option.bind_some, hsum]

/-- What a character is written as is read as that character. -/
theorem readPieces_escapeChar (c : Char) {fuel : Nat} {cs rest : List Char} {pieces : List Piece}
    (h : readPieces fuel cs = some (pieces, rest)) :
    readPieces (fuel + 1) (escapeChar c ++ cs) = some (.char c :: pieces, rest) := by
  have hletter {letter : Char} (hread : escapeLetter? letter = some c) (hu : letter ≠ 'u') :
      readPieces (fuel + 1) ('\\' :: letter :: cs) = some (.char c :: pieces, rest) := by
    simp [readPieces, hread, h]
  have hunit (hc : c.toNat < 0x20) : readPieces (fuel + 1) ('\\' :: 'u' :: '0' :: '0' ::
      hexDigit (c.toNat / 16) :: hexDigit (c.toNat % 16) :: cs) =
        some (.char c :: pieces, rest) := by
    have hpiece : Piece.ofUnit c.toNat = .char c := by
      rw [Piece.ofUnit, if_neg (by simp; omega), if_neg (by simp; omega), Char.ofNat_toNat]
    simp [readPieces, hexUnit?_control hc, h, hpiece]
  have hraw (hquote : c ≠ '"') (hback : c ≠ '\\') (hc : ¬ c.toNat < 0x20) :
      readPieces (fuel + 1) (c :: cs) = some (.char c :: pieces, rest) := by
    simp only [readPieces, if_neg hquote, if_neg hback, if_neg hc, h]
    rfl
  unfold escapeChar
  split_ifs with hquote hback hfeed hreturn htab hbackspace hform hcontrol
  · exact hletter (by rw [hquote]; decide) (by decide)
  · exact hletter (by rw [hback]; decide) (by decide)
  · exact hletter (by rw [hfeed]; decide) (by decide)
  · exact hletter (by rw [hreturn]; decide) (by decide)
  · exact hletter (by rw [htab]; decide) (by decide)
  · exact hletter (by rw [hbackspace]; decide) (by decide)
  · exact hletter (by rw [hform]; decide) (by decide)
  · exact hunit hcontrol
  · exact hraw hquote hback hcontrol

private theorem readPieces_escaped (cs rest : List Char) {fuel : Nat} (h : cs.length < fuel) :
    readPieces fuel (cs.flatMap escapeChar ++ '"' :: rest) = some (cs.map .char, rest) := by
  induction cs generalizing fuel with
  | nil =>
    obtain ⟨fuel, rfl⟩ : ∃ n, fuel = n + 1 := ⟨fuel - 1, by simp at h; omega⟩
    simp [readPieces]
  | cons c cs ih =>
    obtain ⟨fuel, rfl⟩ : ∃ n, fuel = n + 1 := ⟨fuel - 1, by simp at h; omega⟩
    rw [List.flatMap_cons, List.append_assoc]
    exact readPieces_escapeChar c (ih (by simpa using h))

private theorem length_le_escaped (cs : List Char) :
    cs.length ≤ (cs.flatMap escapeChar).length := by
  have hone (c : Char) : 1 ≤ (escapeChar c).length := by
    unfold escapeChar
    split_ifs <;> simp
  induction cs with
  | nil => simp
  | cons c cs ih =>
    rw [List.flatMap_cons, List.length_append, List.length_cons]
    have := hone c
    omega

private theorem text?_chars (cs : List Char) : Piece.text? (cs.map .char) = some cs := by
  induction cs with
  | nil => rfl
  | cons c cs ih => simp [Piece.text?, ih]

private theorem readQuoted_escaped (s : String) (rest : List Char) :
    readQuoted (s.toList.flatMap escapeChar ++ '"' :: rest) = some (some s, rest) := by
  have hfuel : s.toList.length < (s.toList.flatMap escapeChar ++ '"' :: rest).length + 1 := by
    have := length_le_escaped s.toList
    rw [List.length_append]
    omega
  rw [readQuoted, readPieces_escaped _ rest hfuel]
  simp [text?_chars]

/-- A literal in quotes, or the one that is no text. -/
def literal (key : Option String) : String := (key.map quote).getD "\"\\ud800\""

/-- The literal of a text, and the one that is none, are read as what they stand for. -/
theorem readQuoted_literal (key : Option String) :
    ∃ body, (literal key).toList = '"' :: body ∧
      ∀ rest, readQuoted (body ++ rest) = some (key, rest) := by
  cases key with
  | none =>
    refine ⟨"\\ud800\"".toList, rfl, fun rest => ?_⟩
    have hunit (cs : List Char) :
        hexUnit? ('d' :: '8' :: '0' :: '0' :: cs) = some (0xd800, cs) := by
      simp [hexUnit?, hexValue?]
    simp [readQuoted, readPieces, hunit, Piece.ofUnit, Piece.text?]
  | some s =>
    refine ⟨s.toList.flatMap escapeChar ++ ['"'], by simp [literal, quote], fun rest => ?_⟩
    rw [List.append_assoc]
    exact readQuoted_escaped s rest

/-! ### Numbers -/

/-- `Ends rest`: what follows does not go on with a number. -/
def Ends (rest : List Char) : Prop :=
  ∀ c ∈ rest.head?, c.isDigit = false ∧ c ≠ '.' ∧ c ≠ 'e' ∧ c ≠ 'E'

private theorem ends_nil : Ends [] := by simp [Ends]

private theorem Ends.blank {gap : List Char} (hgap : Blank gap) {rest : List Char} (h : Ends rest) :
    Ends (gap ++ rest) := by
  cases gap with
  | nil => exact h
  | cons c gap =>
    intro d hd
    obtain rfl : c = d := by simpa using hd
    have hc := hgap c (by simp)
    simp only [isSpace, Bool.or_eq_true, beq_iff_eq] at hc
    rcases hc with ((rfl | rfl) | rfl) | rfl <;> decide

private theorem spanDigits_append {digits rest : List Char}
    (hdigits : ∀ c ∈ digits, c.isDigit = true)
    (hrest : Ends rest) : spanDigits (digits ++ rest) = (digits, rest) := by
  rw [spanDigits, List.span_eq_takeWhile_dropWhile, List.takeWhile_append_of_pos hdigits,
    List.dropWhile_append_of_pos hdigits]
  cases rest with
  | nil => simp
  | cons c rest =>
    have hc := (hrest c rfl).1
    simp [hc]

/-- Digits of a number that is not zero do not start with a zero. -/
theorem head_toDigits {n : Nat} (hn : 0 < n) : (Nat.toDigits 10 n).head? ≠ some '0' := by
  induction n using Nat.strongRecOn with
  | _ n ih =>
    by_cases hlt : n < 10
    · have hdigit : ∀ k < 10, 0 < k → k.digitChar ≠ '0' := by decide
      rw [Nat.toDigits_of_lt_base hlt]
      simpa using hdigit n hlt hn
    · have hquot : 0 < n / 10 := by omega
      have hne : Nat.toDigits 10 (n / 10) ≠ [] := Nat.toDigits_ne_nil
      rw [Nat.toDigits_of_base_le (by decide) (by omega), List.head?_append_of_ne_nil _ hne]
      exact ih (n / 10) (by omega) hquot

private theorem readWhole?_toDigits (n : Nat) {rest : List Char} (hrest : Ends rest) :
    readWhole? (Nat.toDigits 10 n ++ rest) = some (Nat.toDigits 10 n, rest) := by
  have hdigits : ∀ c ∈ Nat.toDigits 10 n, c.isDigit = true := fun c hc =>
    Nat.isDigit_of_mem_toDigits (by decide) (by decide) hc
  rw [readWhole?, spanDigits_append hdigits hrest]
  split
  · next h => exact absurd (congrArg Prod.fst h) Nat.toDigits_ne_nil
  · next c more _ h =>
    have hzero : n ≠ 0 := by
      rintro rfl
      simpa [Nat.toDigits_zero] using congrArg Prod.fst h
    have hhead : Nat.toDigits 10 n = '0' :: c :: more := congrArg Prod.fst h
    exact absurd (by rw [hhead]; rfl) (head_toDigits (Nat.pos_of_ne_zero hzero))
  · rfl

private theorem readNumber?_toString (n : Nat) {rest : List Char} (hrest : Ends rest) :
    readNumber? ((toString n).toList ++ rest) = some (natural n, rest) := by
  have hlist : (toString n).toList = Nat.toDigits 10 n := Nat.toList_repr
  have hvalue : ofDigits (Nat.toDigits 10 n) = n := Nat.ofDigitChars_ten_toDigits
  obtain ⟨c, more, hcons⟩ := List.exists_cons_of_ne_nil (Nat.toDigits_ne_nil (n := n) (b := 10))
  have hminus : c ≠ '-' := by
    rintro rfl
    have hdigit : '-'.isDigit = true :=
      Nat.isDigit_of_mem_toDigits (n := n) (b := 10) (by decide) (by decide) (by simp [hcons])
    cases hdigit
  have hwhole := readWhole?_toDigits n hrest
  have hfraction : readFraction? rest = some ([], rest) := by
    unfold readFraction?
    split
    · exact absurd rfl (hrest '.' rfl).2.1
    · rfl
  have hexponent : readExponent? rest = some ([], rest) := by
    unfold readExponent?
    split
    · next e _ =>
      obtain ⟨-, -, he, hE⟩ := hrest e rfl
      simp [he, hE]
    · rfl
  rw [hlist]
  rw [hcons] at hwhole hvalue ⊢
  rw [List.cons_append] at hwhole
  simp [readNumber?, hminus, hwhole, hfraction, hexponent, hvalue]

/-! ### Values -/

/-- `Reads j cs`: the text `cs` is read as the value `j`, with two steps for each character. -/
def Reads (j : Json) (cs : List Char) : Prop :=
  ∀ fuel rest, 2 * cs.length ≤ fuel → Ends rest → readValue fuel (cs ++ rest) = some (j, rest)

/-- `ReadsItems items cs`: the text `cs`, a closing bracket at its end, is read as the items of an
array. -/
def ReadsItems (items : List Json) (cs : List Char) : Prop :=
  ∀ fuel rest, 2 * cs.length ≤ fuel → readItems fuel (cs ++ rest) = some (items, rest)

/-- `ReadsFields fields cs`: the text `cs`, a closing brace at its end, is read as the fields of an
object. -/
def ReadsFields (fields : List (Option String × Json)) (cs : List Char) : Prop :=
  ∀ fuel rest, 2 * cs.length ≤ fuel → readFields fuel (cs ++ rest) = some (fields, rest)

/-- `ReadsField field cs`: the text `cs` is a key, a colon, and what is read as the value. -/
def ReadsField (field : Option String × Json) (cs : List Char) : Prop :=
  ∃ gap value, Blank gap ∧ Reads field.2 value ∧
    cs = (literal field.1).toList ++ ':' :: (gap ++ value)

/-- A text with a character leaves a step for what it holds. -/
theorem exists_step {fuel n : Nat} (h : 2 * (n + 1) ≤ fuel) :
    ∃ k, fuel = k + 1 ∧ 2 * n ≤ k :=
  ⟨fuel - 1, by omega, by omega⟩

private theorem reads_null : Reads null "null".toList := by
  intro fuel rest hfuel _
  obtain ⟨fuel, rfl, -⟩ := exists_step hfuel
  simp [readValue, skipSpace, isSpace, afterWord?]

private theorem reads_bool (b : Bool) : Reads (bool b) (if b then "true" else "false").toList := by
  intro fuel rest hfuel _
  cases b
  · obtain ⟨fuel, rfl, -⟩ := exists_step hfuel
    simp [readValue, skipSpace, isSpace, afterWord?]
  · obtain ⟨fuel, rfl, -⟩ := exists_step hfuel
    simp [readValue, skipSpace, isSpace, afterWord?]

private theorem reads_natural (n : Nat) : Reads (natural n) (toString n).toList := by
  intro fuel rest hfuel hrest
  have hlist : (toString n).toList = Nat.toDigits 10 n := Nat.toList_repr
  have hread := readNumber?_toString n hrest
  obtain ⟨c, more, hcons⟩ := List.exists_cons_of_ne_nil (Nat.toDigits_ne_nil (n := n) (b := 10))
  have hdigit : c.isDigit = true :=
    Nat.isDigit_of_mem_toDigits (n := n) (b := 10) (by decide) (by decide) (by simp [hcons])
  have hspace : isSpace c = false := by
    by_contra hc
    simp only [isSpace, Bool.not_eq_false, Bool.or_eq_true, beq_iff_eq] at hc
    rcases hc with ((rfl | rfl) | rfl) | rfl <;> cases hdigit
  have hne : c ≠ '"' ∧ c ≠ '[' ∧ c ≠ '\x7b' ∧ c ≠ 'n' ∧ c ≠ 't' ∧ c ≠ 'f' := by
    refine ⟨?_, ?_, ?_, ?_, ?_, ?_⟩ <;> rintro rfl <;> cases hdigit
  rw [hlist, hcons] at hfuel hread ⊢
  obtain ⟨fuel, rfl, -⟩ := exists_step hfuel
  rw [List.cons_append] at hread ⊢
  simp [readValue, skipSpace_cons hspace, hne, hread]

private theorem reads_literal (key : Option String) :
    Reads ((key.map text).getD unpaired) (literal key).toList := by
  intro fuel rest hfuel _
  obtain ⟨body, hbody, hread⟩ := readQuoted_literal key
  rw [hbody] at hfuel ⊢
  obtain ⟨fuel, rfl, -⟩ := exists_step hfuel
  rw [List.cons_append, readValue, skipSpace_cons (by decide)]
  simp [hread rest]

private theorem readItems_close (fuel : Nat) (rest : List Char) :
    readItems fuel (']' :: rest) = none := by
  have hvalue (fuel : Nat) : readValue fuel (']' :: rest) = none := by
    cases fuel with
    | zero => simp [readValue]
    | succ fuel =>
      simp [readValue, skipSpace_cons, isSpace, readNumber?, readWhole?, spanDigits,
        List.span_eq_takeWhile_dropWhile]
  cases fuel with
  | zero => simp [readItems]
  | succ fuel => simp [readItems, hvalue]

private theorem readFields_close (fuel : Nat) (rest : List Char) :
    readFields fuel ('\x7d' :: rest) = none := by
  cases fuel with
  | zero => simp [readFields]
  | succ fuel => simp [readFields, skipSpace_cons, isSpace]

private theorem reads_array_nil : Reads (array []) "[]".toList := by
  intro fuel rest hfuel _
  obtain ⟨fuel, rfl, -⟩ := exists_step hfuel
  simp [readValue, skipSpace_cons, isSpace]

private theorem reads_object_nil : Reads (object []) "\x7b\x7d".toList := by
  intro fuel rest hfuel _
  obtain ⟨fuel, rfl, -⟩ := exists_step hfuel
  simp [readValue, skipSpace_cons, isSpace]

private theorem ReadsItems.array {items : List Json} {cs : List Char} (h : ReadsItems items cs) :
    Reads (array items) ('[' :: cs) := by
  intro fuel rest hfuel _
  obtain ⟨fuel, rfl, hstep⟩ := exists_step hfuel
  have hread := h fuel rest hstep
  rw [← readItems_skipSpace] at hread
  have hopen (r : List Char) : skipSpace (cs ++ rest) ≠ ']' :: r := by
    intro hclose
    rw [hclose, readItems_close] at hread
    cases hread
  simp [readValue, skipSpace_cons, isSpace, hread]

private theorem ReadsFields.object {fields : List (Option String × Json)} {cs : List Char}
    (h : ReadsFields fields cs) : Reads (object fields) ('\x7b' :: cs) := by
  intro fuel rest hfuel _
  obtain ⟨fuel, rfl, hstep⟩ := exists_step hfuel
  have hread := h fuel rest hstep
  rw [← readFields_skipSpace] at hread
  have hopen (r : List Char) : skipSpace (cs ++ rest) ≠ '\x7d' :: r := by
    intro hclose
    rw [hclose, readFields_close] at hread
    cases hread
  simp [readValue, skipSpace_cons, isSpace, hread]

private theorem ReadsItems.last {item : Json} {gap cs gap' : List Char} (hgap : Blank gap)
    (hgap' : Blank gap') (h : Reads item cs) :
    ReadsItems [item] (gap ++ cs ++ (gap' ++ [']'])) := by
  intro fuel rest hfuel
  obtain ⟨fuel, rfl⟩ : ∃ n, fuel = n + 1 := ⟨fuel - 1, by simp at hfuel; omega⟩
  have hread := h fuel (gap' ++ ']' :: rest) (by simp at hfuel; omega)
    (Ends.blank hgap' (by simp [Ends]))
  simp only [List.append_assoc, List.cons_append, List.nil_append]
  rw [readItems, readValue_blank hgap, hread]
  simp [skipSpace_append hgap', skipSpace_cons, isSpace]

private theorem ReadsItems.cons {item : Json} {items : List Json} {gap cs more : List Char}
    (hgap : Blank gap) (h : Reads item cs) (hmore : ReadsItems items more) :
    ReadsItems (item :: items) (gap ++ cs ++ ',' :: more) := by
  intro fuel rest hfuel
  obtain ⟨fuel, rfl⟩ : ∃ n, fuel = n + 1 := ⟨fuel - 1, by simp at hfuel; omega⟩
  have hread := h fuel (',' :: (more ++ rest)) (by simp at hfuel; omega) (by simp [Ends])
  have hrest := hmore fuel rest (by simp at hfuel; omega)
  simp only [List.append_assoc, List.cons_append]
  rw [readItems, readValue_blank hgap, hread]
  simp [skipSpace_cons, isSpace, hrest]

/-- Items with commas between them are read one after the other. -/
theorem readsItems_intercalate {items : List Json} {texts : List (List Char)}
    {gap gap' : List Char} (hgap : Blank gap) (hgap' : Blank gap')
    (h : List.Forall₂ Reads items texts) (hne : items ≠ []) :
    ReadsItems items (gap ++ (',' :: gap).intercalate texts ++ (gap' ++ [']'])) := by
  induction h with
  | nil => exact absurd rfl hne
  | @cons item cs items texts hitem hrest ih =>
    cases hrest with
    | nil =>
      rw [List.intercalate_singleton]
      exact .last hgap hgap' hitem
    | cons hnext hrest =>
      rw [List.intercalate_cons_cons]
      have hmore := ih (by simp)
      simpa using ReadsItems.cons hgap hitem hmore

private theorem ReadsFields.last {field : Option String × Json} {gap cs gap' : List Char}
    (hgap : Blank gap) (hgap' : Blank gap') (h : ReadsField field cs) :
    ReadsFields [field] (gap ++ cs ++ (gap' ++ ['\x7d'])) := by
  obtain ⟨key, value⟩ := field
  obtain ⟨space, text, hspace, hvalue, rfl⟩ := h
  obtain ⟨body, hbody, hkey⟩ := readQuoted_literal key
  rw [hbody]
  intro fuel rest hfuel
  obtain ⟨fuel, rfl⟩ : ∃ n, fuel = n + 1 := ⟨fuel - 1, by simp at hfuel; omega⟩
  have hread := hvalue fuel (gap' ++ '\x7d' :: rest) (by simp at hfuel; omega)
    (Ends.blank hgap' (by simp [Ends]))
  simp only [List.append_assoc, List.cons_append, List.nil_append]
  rw [readFields, skipSpace_append hgap, skipSpace_cons (by decide)]
  simp [hkey, skipSpace_cons, isSpace, readValue_blank hspace, hread, skipSpace_append hgap']

private theorem ReadsFields.cons {field : Option String × Json}
    {fields : List (Option String × Json)}
    {gap cs more : List Char} (hgap : Blank gap) (h : ReadsField field cs)
    (hmore : ReadsFields fields more) :
    ReadsFields (field :: fields) (gap ++ cs ++ ',' :: more) := by
  obtain ⟨key, value⟩ := field
  obtain ⟨space, text, hspace, hvalue, rfl⟩ := h
  obtain ⟨body, hbody, hkey⟩ := readQuoted_literal key
  rw [hbody]
  intro fuel rest hfuel
  obtain ⟨fuel, rfl⟩ : ∃ n, fuel = n + 1 := ⟨fuel - 1, by simp at hfuel; omega⟩
  have hread := hvalue fuel (',' :: (more ++ rest)) (by simp at hfuel; omega) (by simp [Ends])
  have hrest := hmore fuel rest (by simp at hfuel; omega)
  simp only [List.append_assoc, List.cons_append]
  rw [readFields, skipSpace_append hgap, skipSpace_cons (by decide)]
  simp [hkey, skipSpace_cons, isSpace, readValue_blank hspace, hread, hrest]

/-- Fields with commas between them are read one after the other. -/
theorem readsFields_intercalate {fields : List (Option String × Json)} {texts : List (List Char)}
    {gap gap' : List Char} (hgap : Blank gap) (hgap' : Blank gap')
    (h : List.Forall₂ ReadsField fields texts) (hne : fields ≠ []) :
    ReadsFields fields (gap ++ (',' :: gap).intercalate texts ++ (gap' ++ ['\x7d'])) := by
  induction h with
  | nil => exact absurd rfl hne
  | @cons field cs fields texts hfield hrest ih =>
    cases hrest with
    | nil =>
      rw [List.intercalate_singleton]
      exact .last hgap hgap' hfield
    | cons hnext hrest =>
      rw [List.intercalate_cons_cons]
      have hmore := ih (by simp)
      simpa using ReadsFields.cons hgap hfield hmore

/-! ### Written values -/

mutual

/-- Whether all numbers in a value are natural. -/
def isWhole : Json → Bool
  | decimal _ => false
  | array items => areWhole items
  | object fields => haveWhole fields
  | _ => true

/-- Whether all numbers in some values are natural. -/
def areWhole : List Json → Bool
  | [] => true
  | item :: rest => isWhole item && areWhole rest

/-- Whether all numbers in some fields are natural. -/
def haveWhole : List (Option String × Json) → Bool
  | [] => true
  | (_, value) :: rest => isWhole value && haveWhole rest

end

/-- Items between brackets, with a gap before each and before the closing bracket. -/
theorem reads_array {items : List Json} {texts : List String} (gap gap' : String)
    (hgap : Blank gap.toList) (hgap' : Blank gap'.toList)
    (h : List.Forall₂ Reads items (texts.map String.toList)) (hne : items ≠ []) :
    Reads (array items)
      ("[" ++ gap ++ Text.joinWith ("," ++ gap) texts ++ gap' ++ "]").toList := by
  have hitems := (readsItems_intercalate hgap hgap' h hne).array
  simpa [Text.joinWith] using hitems

/-- Fields between braces, with a gap before each and before the closing brace. -/
theorem reads_object {fields : List (Option String × Json)} {texts : List String}
    (gap gap' : String) (hgap : Blank gap.toList) (hgap' : Blank gap'.toList)
    (h : List.Forall₂ ReadsField fields (texts.map String.toList)) (hne : fields ≠ []) :
    Reads (object fields)
      ("\x7b" ++ gap ++ Text.joinWith ("," ++ gap) texts ++ gap' ++ "\x7d").toList := by
  have hfields := (readsFields_intercalate hgap hgap' h hne).object
  simpa [Text.joinWith] using hfields

private theorem blank_nil : Blank "".toList := by simp [Blank]

mutual

/-- A value on one line is read as that value. -/
theorem reads_compact : (j : Json) → j.isWhole = true → Reads j j.compact.toList
  | null, _ => reads_null
  | bool b, _ => reads_bool b
  | natural n, _ => reads_natural n
  | decimal _, h => by cases h
  | text s, _ => reads_literal (some s)
  | unpaired, _ => reads_literal none
  | array [], _ => reads_array_nil
  | array (item :: items), h => by
    have hitems := reads_compactItems (item :: items) h
    simpa [compact] using reads_array "" "" blank_nil blank_nil hitems (by simp)
  | object [], _ => reads_object_nil
  | object (field :: fields), h => by
    have hfields := reads_compactFields (field :: fields) h
    simpa [compact] using reads_object "" "" blank_nil blank_nil hfields (by simp)

/-- Every item of a list without layout is read back. -/
theorem reads_compactItems : (items : List Json) → areWhole items = true →
    List.Forall₂ Reads items ((compactItems items).map String.toList)
  | [], _ => .nil
  | item :: items, h => by
    rw [areWhole, Bool.and_eq_true] at h
    exact .cons (reads_compact item h.1) (reads_compactItems items h.2)

/-- Every field of an object without layout is read back. -/
theorem reads_compactFields : (fields : List (Option String × Json)) → haveWhole fields = true →
    List.Forall₂ ReadsField fields ((compactFields fields).map String.toList)
  | [], _ => .nil
  | (key, value) :: fields, h => by
    rw [haveWhole, Bool.and_eq_true] at h
    refine .cons ?_ (reads_compactFields fields h.2)
    exact ⟨[], _, blank_nil, reads_compact value h.1, by simp [literal]⟩

end

mutual

/-- A value over several lines is read as that value. -/
theorem reads_pretty (level : Nat) : (j : Json) → j.isWhole = true → Reads j (j.pretty level).toList
  | null, _ => reads_null
  | bool b, _ => reads_bool b
  | natural n, _ => reads_natural n
  | decimal _, h => by cases h
  | text s, _ => reads_literal (some s)
  | unpaired, _ => reads_literal none
  | array [], _ => reads_array_nil
  | array (item :: items), h => by
    have hitems := reads_prettyItems (level + 1) (item :: items) h
    exact reads_array _ _ (blank_newLine (level + 1)) (blank_newLine level) hitems (by simp)
  | object [], _ => reads_object_nil
  | object (field :: fields), h => by
    have hfields := reads_prettyFields (level + 1) (field :: fields) h
    exact reads_object _ _ (blank_newLine (level + 1)) (blank_newLine level) hfields (by simp)

/-- Every item of a list with layout is read back. -/
theorem reads_prettyItems (level : Nat) : (items : List Json) → areWhole items = true →
    List.Forall₂ Reads items ((prettyItems level items).map String.toList)
  | [], _ => .nil
  | item :: items, h => by
    rw [areWhole, Bool.and_eq_true] at h
    exact .cons (reads_pretty level item h.1) (reads_prettyItems level items h.2)

/-- Every field of an object with layout is read back. -/
theorem reads_prettyFields (level : Nat) : (fields : List (Option String × Json)) →
    haveWhole fields = true →
    List.Forall₂ ReadsField fields ((prettyFields level fields).map String.toList)
  | [], _ => .nil
  | (key, value) :: fields, h => by
    rw [haveWhole, Bool.and_eq_true] at h
    refine .cons ?_ (reads_prettyFields level fields h.2)
    exact ⟨[' '], _, by simp [Blank, isSpace], reads_pretty level value h.1, by simp [literal]⟩

end

/-- A whole text that is read as a value stands for it. -/
theorem parse?_of_reads {j : Json} {s : String} (h : Reads j s.toList) : parse? s = some j := by
  have hread := h (2 * s.toList.length + 2) [] (Nat.le_add_right _ _) ends_nil
  rw [List.append_nil] at hread
  have hend : (skipSpace []).isEmpty = true := rfl
  rw [parse?]
  simp only [hread, Option.bind_eq_bind, Option.bind_some, hend, if_true]

/-- Reading gives back what was written on one line. -/
theorem parse?_compact {j : Json} (h : j.isWhole = true) : parse? j.compact = some j :=
  parse?_of_reads (reads_compact j h)

/-- Reading gives back what was written over several lines. -/
theorem parse?_pretty {j : Json} (h : j.isWhole = true) (level : Nat) :
    parse? (j.pretty level) = some j :=
  parse?_of_reads (reads_pretty level j h)

end PromptOutline.Json
