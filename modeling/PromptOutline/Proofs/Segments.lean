import Mathlib.Algebra.Ring.Parity
import PromptOutline.Document.Paragraph

/-!
# Runs of lines by their fences

The parts of a run of lines are given by its fences alone. Every odd one of them opens a region that
reaches to the next fence; between regions, lines that stand together without an empty one are a
paragraph. A place is inside a region if an odd number of fences stand before it, and empty lines
that are not inside go away.

These parts grow line by line: a line goes away, opens a part or goes into the last one.
-/

namespace PromptOutline.Document

/-- Consecutive lines of a run that one node takes: its form, the place of the first line and the
number of lines. -/
structure Segment where
  form : TextForm
  first : Nat
  count : Nat
  deriving Repr, DecidableEq

namespace Segment

/-- The places of the lines of a part. -/
def places (p : Segment) : List Nat := List.range' p.first p.count

/-- The lines of a part. -/
def lines (p : Segment) (vs : List String) : List String := (vs.drop p.first).take p.count

/-- A part with the next line. -/
def extend (p : Segment) : Segment := { p with count := p.count + 1 }

/-- A segment has the places from its first one on, as many as it counts. -/
theorem mem_places {p : Segment} {i : Nat} :
    i ∈ p.places ↔ p.first ≤ i ∧ i < p.first + p.count := by
  simp [places, List.mem_range'_1]

private theorem places_extend (p : Segment) :
    p.extend.places = p.places ++ [p.first + p.count] := by
  rw [places, places, extend, List.range'_concat, Nat.one_mul]

end Segment

/-! ### Fences and places -/

/-- The empty text is no fence. -/
theorem isFence_of_isEmpty {s : String} (h : s.isEmpty = true) : isFence s = false := by
  rw [String.isEmpty_iff.mp h]
  rfl

/-- Whether the line at a place is a fence. -/
def fenceAt (vs : List String) (i : Nat) : Bool := isFence (vs.getD i "")

/-- Whether the line at a place is empty. -/
def emptyAt (vs : List String) (i : Nat) : Bool := (vs.getD i "").isEmpty

/-- A place is inside a region if an odd number of fences stand before it. -/
def Inside (vs : List String) (i : Nat) : Prop := Odd ((vs.take i).countP isFence)

instance (vs : List String) : DecidablePred (Inside vs) :=
  fun _ => inferInstanceAs (Decidable (Odd _))

/-- A line that is not inside a region and is neither empty nor a fence. -/
structure Plain (vs : List String) (i : Nat) : Prop where
  lt_length : i < vs.length
  outside : ¬ Inside vs i
  filled : emptyAt vs i = false
  noFence : fenceAt vs i = false

/-- The places of lines that stay: an empty line outside regions goes away. -/
def keptPlaces (vs : List String) : List Nat :=
  (List.range vs.length).filter fun i => !emptyAt vs i || decide (Inside vs i)

/-- The places of the odd fences. -/
def openedPlaces (vs : List String) : List Nat :=
  (List.range vs.length).filter fun i => fenceAt vs i && !decide (Inside vs i)

/-- There is no empty line and no fence between two places. -/
def Together (vs : List String) (i k : Nat) : Prop :=
  ∀ m, i < m → m < k → emptyAt vs m = false ∧ fenceAt vs m = false

/-- The parts of a run of lines. -/
structure Segmentation (vs : List String) (parts : List Segment) : Prop where
  kept : parts.flatMap Segment.places = keptPlaces vs
  starts : ∀ p ∈ parts, 0 < p.count
  form : ∀ p ∈ parts, p.form = .paragraph ∨ p.form = .fenced
  opened : (parts.filter (·.form = .fenced)).map Segment.first = openedPlaces vs
  reach : ∀ p ∈ parts, p.form = .fenced → ∀ k,
    k ∈ p.places ↔ p.first ≤ k ∧ k < vs.length ∧ ∀ m, p.first < m → m < k → fenceAt vs m = false
  paragraph : ∀ p ∈ parts, p.form = .paragraph → ∀ i ∈ p.places, Plain vs i
  plain : ∀ i, Plain vs i → ∃ p ∈ parts, p.form = .paragraph ∧ i ∈ p.places
  share : ∀ i k, i < k → Plain vs i → Plain vs k →
    ((∃ p ∈ parts, i ∈ p.places ∧ k ∈ p.places) ↔ Together vs i k)

section Places

variable {vs : List String} {v : String} {i k : Nat}

private theorem getD_concat_of_lt (h : i < vs.length) : (vs ++ [v]).getD i "" = vs.getD i "" := by
  simp [List.getD_eq_getElem?_getD, List.getElem?_append_left h]

private theorem fenceAt_concat_of_lt (h : i < vs.length) :
    fenceAt (vs ++ [v]) i = fenceAt vs i := by
  rw [fenceAt, getD_concat_of_lt h, fenceAt]

private theorem fenceAt_concat_self : fenceAt (vs ++ [v]) vs.length = isFence v := by
  simp [fenceAt]

private theorem emptyAt_concat_of_lt (h : i < vs.length) :
    emptyAt (vs ++ [v]) i = emptyAt vs i := by
  rw [emptyAt, getD_concat_of_lt h, emptyAt]

private theorem emptyAt_concat_self : emptyAt (vs ++ [v]) vs.length = v.isEmpty := by
  simp [emptyAt]

private theorem inside_concat_of_le (h : i ≤ vs.length) : Inside (vs ++ [v]) i ↔ Inside vs i := by
  simp only [Inside, List.take_append_of_le_length h]

/-- A fence goes in or out. -/
theorem inside_succ (h : i < vs.length) :
    Inside vs (i + 1) ↔ (Inside vs i ↔ fenceAt vs i = false) := by
  have htake : vs.take (i + 1) = vs.take i ++ [vs[i]] := by
    rw [List.take_add_one, List.getElem?_eq_getElem h, Option.toList_some]
  have hfence : fenceAt vs i = isFence vs[i] := by
    rw [fenceAt, List.getD_eq_getElem?_getD, List.getElem?_eq_getElem h, Option.getD_some]
  simp only [Inside, htake, hfence, List.countP_append, List.countP_singleton]
  cases isFence vs[i] <;> simp [Nat.odd_add_one]

/-- Behind an odd fence one is inside up to the next one. -/
theorem inside_of_opened (hfence : fenceAt vs i = true) (hout : ¬ Inside vs i) (hik : i < k)
    (hk : k ≤ vs.length) (hnone : ∀ m, i < m → m < k → fenceAt vs m = false) : Inside vs k := by
  induction k, hik using Nat.le_induction with
  | base => simp [inside_succ hk, hout, hfence]
  | succ k hik ih =>
    have hinside := ih (Nat.le_of_succ_le hk) fun m hm hmk => hnone m hm (Nat.lt_succ_of_lt hmk)
    simp [inside_succ hk, hinside, hnone k hik (Nat.lt_succ_self k)]

private theorem plain_concat_of_lt (h : i < vs.length) : Plain (vs ++ [v]) i ↔ Plain vs i := by
  constructor <;> rintro ⟨hlt, hout, hfilled, hfence⟩
  · rw [inside_concat_of_le (Nat.le_of_lt h)] at hout
    rw [emptyAt_concat_of_lt h] at hfilled
    rw [fenceAt_concat_of_lt h] at hfence
    exact ⟨h, hout, hfilled, hfence⟩
  · refine ⟨by simp; omega, ?_, ?_, ?_⟩
    · rwa [inside_concat_of_le (Nat.le_of_lt h)]
    · rwa [emptyAt_concat_of_lt h]
    · rwa [fenceAt_concat_of_lt h]

private theorem plain_concat_self :
    Plain (vs ++ [v]) vs.length ↔
      ¬ Inside vs vs.length ∧ v.isEmpty = false ∧ isFence v = false := by
  constructor
  · rintro ⟨-, hout, hfilled, hfence⟩
    rw [inside_concat_of_le le_rfl] at hout
    rw [emptyAt_concat_self] at hfilled
    rw [fenceAt_concat_self] at hfence
    exact ⟨hout, hfilled, hfence⟩
  · rintro ⟨hout, hfilled, hfence⟩
    exact ⟨by simp, by rwa [inside_concat_of_le le_rfl], by rwa [emptyAt_concat_self],
      by rwa [fenceAt_concat_self]⟩

private theorem together_concat (h : k ≤ vs.length) :
    Together (vs ++ [v]) i k ↔ Together vs i k := by
  refine forall_congr' fun m => forall_congr' fun _ => forall_congr' fun hm => ?_
  rw [emptyAt_concat_of_lt (Nat.lt_of_lt_of_le hm h),
    fenceAt_concat_of_lt (Nat.lt_of_lt_of_le hm h)]

/-- Places up to the last one that satisfy a condition on lines before them. -/
theorem filter_range_concat (f g : Nat → Bool) (h : ∀ i < vs.length, f i = g i) :
    (List.range (vs ++ [v]).length).filter f =
      (List.range vs.length).filter g ++ if f vs.length then [vs.length] else [] := by
  rw [List.length_append, List.length_singleton, List.range_succ, List.filter_append,
    List.filter_cons, List.filter_nil, List.filter_congr fun i hi => h i (List.mem_range.mp hi)]

private theorem keptPlaces_concat :
    keptPlaces (vs ++ [v]) =
      keptPlaces vs ++ if v.isEmpty = true ∧ ¬ Inside vs vs.length then [] else [vs.length] := by
  have hbefore : ∀ i < vs.length, (!emptyAt (vs ++ [v]) i || decide (Inside (vs ++ [v]) i)) =
      (!emptyAt vs i || decide (Inside vs i)) := fun i hi => by
    simp only [emptyAt_concat_of_lt hi, inside_concat_of_le (Nat.le_of_lt hi)]
  rw [keptPlaces, keptPlaces, filter_range_concat _ _ hbefore]
  simp only [emptyAt_concat_self, inside_concat_of_le le_rfl]
  congr 1
  cases v.isEmpty <;> by_cases hin : Inside vs vs.length <;> simp [hin]

private theorem openedPlaces_concat :
    openedPlaces (vs ++ [v]) =
      openedPlaces vs ++ if isFence v = true ∧ ¬ Inside vs vs.length then [vs.length] else [] := by
  have hbefore : ∀ i < vs.length, (fenceAt (vs ++ [v]) i && !decide (Inside (vs ++ [v]) i)) =
      (fenceAt vs i && !decide (Inside vs i)) := fun i hi => by
    simp only [fenceAt_concat_of_lt hi, inside_concat_of_le (Nat.le_of_lt hi)]
  rw [openedPlaces, openedPlaces, filter_range_concat _ _ hbefore]
  simp only [fenceAt_concat_self, inside_concat_of_le le_rfl]
  congr 1
  cases isFence v <;> by_cases hin : Inside vs vs.length <;> simp [hin]

end Places

/-! ### Growing parts -/

namespace Segmentation

variable {vs : List String} {v : String} {parts : List Segment} {p : Segment} {i : Nat}

private theorem nil : Segmentation [] [] where
  kept := rfl
  starts := by simp
  form := by simp
  opened := rfl
  reach := by simp
  paragraph := by simp
  plain i h := absurd h.lt_length (by simp)
  share i _ _ h := absurd h.lt_length (by simp)

/-- The places of a segment lie among the values. -/
theorem lt_length (h : Segmentation vs parts) (hp : p ∈ parts) (hi : i ∈ p.places) :
    i < vs.length := by
  have hmem : i ∈ parts.flatMap Segment.places := List.mem_flatMap.mpr ⟨p, hp, hi⟩
  rw [h.kept] at hmem
  exact List.mem_range.mp (List.mem_filter.mp hmem).1

/-- A region starts with a fence that is not inside another one. -/
theorem opens (h : Segmentation vs parts) (hp : p ∈ parts) (hform : p.form = .fenced) :
    p.first < vs.length ∧ fenceAt vs p.first = true ∧ ¬ Inside vs p.first := by
  have hmem : p.first ∈ (parts.filter (·.form = .fenced)).map Segment.first :=
    List.mem_map_of_mem (List.mem_filter.mpr ⟨hp, by simpa using hform⟩)
  rw [h.opened] at hmem
  obtain ⟨hlt, hopen⟩ := List.mem_filter.mp hmem
  simpa using And.intro (List.mem_range.mp hlt) hopen

/-- A region before a place that is outside is over: it does not take the next line. -/
theorem reach_concat (h : Segmentation vs parts) (hp : p ∈ parts) (hform : p.form = .fenced)
    {out : Nat} (hlt : p.first < out) (hout : ¬ Inside vs out) (hle : out ≤ vs.length) (k : Nat) :
    k ∈ p.places ↔ p.first ≤ k ∧ k < (vs ++ [v]).length ∧
      ∀ m, p.first < m → m < k → fenceAt (vs ++ [v]) m = false := by
  obtain ⟨-, hfence, hfirst⟩ := h.opens hp hform
  rw [h.reach p hp hform]
  refine and_congr_right fun hk => ?_
  constructor
  · rintro ⟨hklt, hnone⟩
    refine ⟨by simp; omega, fun m hm hmk => ?_⟩
    rw [fenceAt_concat_of_lt (Nat.lt_trans hmk hklt)]
    exact hnone m hm hmk
  · rintro ⟨hklt, hnone⟩
    rw [List.length_append, List.length_singleton] at hklt
    have hnone' (m : Nat) (hm : p.first < m) (hmk : m < k) : fenceAt vs m = false := by
      rw [← fenceAt_concat_of_lt (v := v) (by omega)]
      exact hnone m hm hmk
    refine ⟨?_, hnone'⟩
    by_contra hge
    exact hout (inside_of_opened hfence hfirst hlt hle fun m hm hmo => hnone' m hm (by omega))

private theorem share_concat (h : Segmentation vs parts) {i k : Nat} (hik : i < k)
    (hk : k < vs.length) (hi : Plain (vs ++ [v]) i) (hk' : Plain (vs ++ [v]) k) :
    (∃ p ∈ parts, i ∈ p.places ∧ k ∈ p.places) ↔ Together (vs ++ [v]) i k := by
  rw [together_concat (Nat.le_of_lt hk)]
  have hi' : Plain vs i := (plain_concat_of_lt (Nat.lt_trans hik hk)).mp hi
  exact h.share i k hik hi' ((plain_concat_of_lt hk).mp hk')

private theorem eq_or_lt {k : Nat} (h : Plain (vs ++ [v]) k) : k = vs.length ∨ k < vs.length := by
  have hlt := h.lt_length
  rw [List.length_append, List.length_singleton] at hlt
  omega

/-- An empty line outside regions goes away. -/
theorem drop (h : Segmentation vs parts) (hempty : v.isEmpty = true)
    (hout : ¬ Inside vs vs.length) : Segmentation (vs ++ [v]) parts := by
  have hlt {k : Nat} (hk : Plain (vs ++ [v]) k) : k < vs.length := by
    refine (eq_or_lt hk).resolve_left ?_
    rintro rfl
    simp [plain_concat_self, hempty] at hk
  refine ⟨?_, h.starts, h.form, ?_, fun p hp hform k => ?_, fun p hp hform i hi => ?_,
    fun i hi => ?_, fun i k hik hi hk => h.share_concat hik (hlt hk) hi hk⟩
  · rw [keptPlaces_concat, if_pos ⟨hempty, hout⟩, List.append_nil, h.kept]
  · rw [openedPlaces_concat, if_neg (by simp [isFence_of_isEmpty hempty]), List.append_nil,
      h.opened]
  · exact h.reach_concat hp hform (h.opens hp hform).1 hout le_rfl k
  · exact (plain_concat_of_lt (h.lt_length hp hi)).mpr (h.paragraph p hp hform i hi)
  · exact h.plain i ((plain_concat_of_lt (hlt hi)).mp hi)

/-- A line outside regions opens a part: a fence opens a region, and another line that is not empty
opens a paragraph if none is open. -/
theorem add {form : TextForm} (h : Segmentation vs parts) (hout : ¬ Inside vs vs.length)
    (hempty : v.isEmpty = false)
    (hform : isFence v = true ∧ form = .fenced ∨
      isFence v = false ∧ form = .paragraph ∧ ∀ i, Plain vs i → ¬ Together vs i vs.length) :
    Segmentation (vs ++ [v]) (parts ++ [⟨form, vs.length, 1⟩]) := by
  have hplaces : (⟨form, vs.length, 1⟩ : Segment).places = [vs.length] := rfl
  have hnew : ∀ p ∈ parts, vs.length ∉ p.places := fun p hp hm =>
    absurd (h.lt_length hp hm) (Nat.lt_irrefl _)
  refine ⟨?_, ?_, ?_, ?_, fun p hp hpform k => ?_, fun p hp hpform i hi => ?_, fun i hi => ?_,
    fun i k hik hi hk => ?_⟩
  · rw [keptPlaces_concat, if_neg (by simp [hempty]), List.flatMap_append, h.kept,
      List.flatMap_singleton, hplaces]
  · have := h.starts
    grind
  · have := h.form
    grind
  · rw [openedPlaces_concat, List.filter_append, List.map_append, h.opened]
    rcases hform with ⟨hfence, rfl⟩ | ⟨hfence, rfl, -⟩ <;> simp [hfence, hout]
  · rcases List.mem_append.mp hp with hp | hp
    · exact h.reach_concat hp hpform (h.opens hp hpform).1 hout le_rfl k
    · obtain rfl := List.mem_singleton.mp hp
      rw [hplaces, List.mem_singleton]
      simp
      grind
  · rcases List.mem_append.mp hp with hp | hp
    · exact (plain_concat_of_lt (h.lt_length hp hi)).mpr (h.paragraph p hp hpform i hi)
    · obtain rfl := List.mem_singleton.mp hp
      rw [hplaces, List.mem_singleton] at hi
      obtain rfl := hi
      have hfence : isFence v = false := by grind
      exact plain_concat_self.mpr ⟨hout, hempty, hfence⟩
  · rcases eq_or_lt hi with rfl | hlt
    · have hfence := (plain_concat_self.mp hi).2.2
      refine ⟨_, List.mem_append_right _ (List.mem_singleton_self _), ?_, by simp [hplaces]⟩
      grind
    · obtain ⟨p, hp, hpi⟩ := h.plain i ((plain_concat_of_lt hlt).mp hi)
      exact ⟨p, List.mem_append_left _ hp, hpi⟩
  · rcases eq_or_lt hk with rfl | hlt
    · have hfence := (plain_concat_self.mp hk).2.2
      have hparted : ¬ Together vs i vs.length := by
        have := (plain_concat_of_lt hik).mp hi
        grind
      rw [together_concat le_rfl]
      refine iff_of_false ?_ hparted
      rintro ⟨p, hp, hpi, hpk⟩
      grind
    · rw [← h.share_concat hik hlt hi hk]
      grind

/-- The places of parts ascend, so an earlier part starts before the last one. -/
theorem first_lt (h : Segmentation vs (parts ++ [p])) {q : Segment} (hq : q ∈ parts) :
    q.first < p.first := by
  have hsorted : ((parts ++ [p]).flatMap Segment.places).Pairwise (· < ·) := by
    rw [h.kept]
    exact List.pairwise_lt_range.filter _
  rw [List.flatMap_append, List.flatMap_singleton, List.pairwise_append] at hsorted
  have hstarts {q : Segment} (hq : q ∈ parts ++ [p]) : q.first ∈ q.places :=
    Segment.mem_places.mpr ⟨le_rfl, Nat.lt_add_of_pos_right (h.starts q hq)⟩
  exact hsorted.2.2 q.first (List.mem_flatMap.mpr ⟨q, hq, hstarts (by simp [hq])⟩) p.first
    (hstarts (by simp))

private theorem mem_extend (hend : p.first + p.count = vs.length) {k : Nat} :
    k ∈ p.extend.places ↔ k ∈ p.places ∨ k = vs.length := by
  rw [Segment.places_extend, List.mem_append, List.mem_singleton, hend]

/-- An open region takes the next line. -/
theorem reach_extend (h : Segmentation vs (parts ++ [p]))
    (hend : p.first + p.count = vs.length) (hform : p.form = .fenced)
    (hnone : ∀ m, p.first < m → m < vs.length → fenceAt vs m = false) (k : Nat) :
    k ∈ p.extend.places ↔ p.first ≤ k ∧ k < (vs ++ [v]).length ∧
      ∀ m, p.first < m → m < k → fenceAt (vs ++ [v]) m = false := by
  have hfirst := (h.opens (by simp) hform).1
  have hsame (m : Nat) (hm : m < vs.length) : fenceAt (vs ++ [v]) m = fenceAt vs m :=
    fenceAt_concat_of_lt hm
  rw [mem_extend hend, h.reach p (by simp) hform, List.length_append, List.length_singleton]
  constructor
  · rintro (⟨hle, hlt, hmid⟩ | rfl)
    · exact ⟨hle, by omega, fun m hm hmk => (hsame m (by omega)).trans (hmid m hm hmk)⟩
    · exact ⟨Nat.le_of_lt hfirst, by omega, fun m hm hmk => (hsame m hmk).trans (hnone m hm hmk)⟩
  · rintro ⟨hle, hlt, hmid⟩
    rcases Nat.lt_succ_iff_lt_or_eq.mp hlt with hlt | rfl
    · exact .inl ⟨hle, hlt, fun m hm hmk => (hsame m (by omega)).symm.trans (hmid m hm hmk)⟩
    · exact .inr rfl

/-- An open paragraph shares the next line with the lines that nothing parts from it. -/
theorem share_extend (h : Segmentation vs (parts ++ [p]))
    (hend : p.first + p.count = vs.length) (hform : p.form = .paragraph)
    (hparted : ∀ i, Plain vs i → i ∈ p.places ∨ ¬ Together vs i vs.length) (hi : Plain vs i) :
    (∃ q ∈ parts ++ [p.extend], i ∈ q.places ∧ vs.length ∈ q.places) ↔
      Together (vs ++ [v]) i vs.length := by
  rw [together_concat le_rfl]
  constructor
  · rintro ⟨q, hq, hqi, hqk⟩
    have hnew : ∀ q ∈ parts, vs.length ∉ q.places := fun q hq hm =>
      absurd (h.lt_length (List.mem_append_left _ hq) hm) (Nat.lt_irrefl _)
    obtain rfl : q = p.extend := by
      rcases List.mem_append.mp hq with hq | hq
      · exact absurd hqk (hnew q hq)
      · exact List.mem_singleton.mp hq
    have hip : i ∈ p.places := ((mem_extend hend).mp hqi).resolve_right (Nat.ne_of_lt hi.lt_length)
    intro m hm hmk
    have hmp : m ∈ p.places := by
      rw [Segment.mem_places] at hip ⊢
      omega
    have hplain := h.paragraph p (by simp) hform m hmp
    exact ⟨hplain.filled, hplain.noFence⟩
  · intro htogether
    have hip := (hparted i hi).resolve_right (not_not_intro htogether)
    exact ⟨p.extend, by simp, (mem_extend hend).mpr (.inl hip), (mem_extend hend).mpr (.inr rfl)⟩

/-- A line goes into the last part: a region takes every line up to the next fence, and a paragraph
takes what follows without an empty line. -/
theorem extend (h : Segmentation vs (parts ++ [p])) (hend : p.first + p.count = vs.length)
    (hform : (p.form = .fenced ∧ Inside vs vs.length ∧
        ∀ m, p.first < m → m < vs.length → fenceAt vs m = false) ∨
      (p.form = .paragraph ∧ ¬ Inside vs vs.length ∧ v.isEmpty = false ∧ isFence v = false ∧
        ∀ i, Plain vs i → i ∈ p.places ∨ ¬ Together vs i vs.length)) :
    Segmentation (vs ++ [v]) (parts ++ [p.extend]) := by
  have hmem : p ∈ parts ++ [p] := by simp
  have hplaces {k : Nat} := mem_extend (k := k) hend
  refine ⟨?_, ?_, ?_, ?_, fun q hq hqform k => ?_, fun q hq hqform i hi => ?_, fun i hi => ?_,
    fun i k hik hi hk => ?_⟩
  · have hkeep : ¬ (v.isEmpty = true ∧ ¬ Inside vs vs.length) := by
      rcases hform with ⟨-, hin, -⟩ | ⟨-, -, hfilled, -⟩
      · exact fun hgone => hgone.2 hin
      · simp [hfilled]
    rw [keptPlaces_concat, if_neg hkeep, ← h.kept, List.flatMap_append, List.flatMap_append,
      List.flatMap_singleton, List.flatMap_singleton, Segment.places_extend, hend,
      List.append_assoc]
  · have := h.starts
    grind [Segment.extend]
  · have := h.form
    grind [Segment.extend]
  · have hopen : ¬ (isFence v = true ∧ ¬ Inside vs vs.length) := by
      rcases hform with ⟨-, hin, -⟩ | ⟨-, -, -, hfence, -⟩
      · exact fun hopen => hopen.2 hin
      · simp [hfence]
    rw [openedPlaces_concat, if_neg hopen, List.append_nil, ← h.opened, List.filter_append,
      List.filter_append, List.map_append, List.map_append]
    congr 1
    by_cases hp : p.form = .fenced <;> simp [Segment.extend, hp]
  · rcases List.mem_append.mp hq with hq | hq
    · have hq' : q ∈ parts ++ [p] := List.mem_append_left _ hq
      rcases hform with ⟨hp, -⟩ | ⟨-, hout, -⟩
      · obtain ⟨hlt, -, hout⟩ := h.opens hmem hp
        exact h.reach_concat hq' hqform (h.first_lt hq) hout (Nat.le_of_lt hlt) k
      · exact h.reach_concat hq' hqform (h.opens hq' hqform).1 hout le_rfl k
    · obtain rfl := List.mem_singleton.mp hq
      replace hqform : p.form = .fenced := hqform
      rcases hform with ⟨-, -, hnone⟩ | ⟨hp, -⟩
      · exact h.reach_extend hend hqform hnone k
      · rw [hqform] at hp
        cases hp
  · rcases List.mem_append.mp hq with hq | hq
    · have hq' : q ∈ parts ++ [p] := List.mem_append_left _ hq
      exact (plain_concat_of_lt (h.lt_length hq' hi)).mpr (h.paragraph q hq' hqform i hi)
    · obtain rfl := List.mem_singleton.mp hq
      replace hqform : p.form = .paragraph := hqform
      rcases hplaces.mp hi with hi | rfl
      · exact (plain_concat_of_lt (h.lt_length hmem hi)).mpr (h.paragraph p hmem hqform i hi)
      · rcases hform with ⟨hp, -⟩ | ⟨-, hout, hfilled, hfence, -⟩
        · rw [hqform] at hp
          cases hp
        · exact plain_concat_self.mpr ⟨hout, hfilled, hfence⟩
  · rcases eq_or_lt hi with rfl | hlt
    · have hout := (plain_concat_self.mp hi).1
      obtain ⟨-, hin, -⟩ | ⟨hp, -⟩ := hform
      · exact absurd hin hout
      · exact ⟨p.extend, by simp, hp, hplaces.mpr (.inr rfl)⟩
    · obtain ⟨q, hq, hqform, hqi⟩ := h.plain i ((plain_concat_of_lt hlt).mp hi)
      rcases List.mem_append.mp hq with hq | hq
      · exact ⟨q, by simp [hq], hqform, hqi⟩
      · obtain rfl := List.mem_singleton.mp hq
        exact ⟨q.extend, by simp, hqform, hplaces.mpr (.inl hqi)⟩
  · rcases eq_or_lt hk with rfl | hlt
    · have hout := (plain_concat_self.mp hk).1
      obtain ⟨-, hin, -⟩ | ⟨hp, -, -, -, hparted⟩ := hform
      · exact absurd hin hout
      · exact h.share_extend hend hp hparted ((plain_concat_of_lt hik).mp hi)
    · rw [← h.share_concat hik hlt hi hk]
      have hi' : i ≠ vs.length := by omega
      have hk' : k ≠ vs.length := by omega
      grind

end Segmentation

/-! ### Walking over a run -/

/-- The state of a walk over a run: the parts that are over, and the one that takes the next
line. -/
structure Scanned (vs : List String) (done : List Segment) (last? : Option Segment) : Prop where
  segmentation : Segmentation vs (done ++ last?.toList)
  inside : Inside vs vs.length ↔ ∃ p, last? = some p ∧ p.form = .fenced
  ends : ∀ p, last? = some p → p.first + p.count = vs.length
  noFence : ∀ p, last? = some p → p.form = .fenced →
    ∀ m, p.first < m → m < vs.length → fenceAt vs m = false
  parted : ∀ i, Plain vs i → Together vs i vs.length →
    ∃ p, last? = some p ∧ p.form = .paragraph ∧ i ∈ p.places

namespace Scanned

variable {vs : List String} {v : String} {done : List Segment} {last? : Option Segment}
  {p : Segment}

/-- Before the first value nothing was scanned. -/
theorem nil : Scanned [] [] none where
  segmentation := .nil
  inside := by simp [Inside]
  ends := by simp
  noFence := by simp
  parted i h := absurd h.lt_length (by simp)

/-- Behind an empty line or a fence, no line goes with the next one. -/
theorem parted_concat (hv : v.isEmpty = true ∨ isFence v = true) {i : Nat}
    (hi : Plain (vs ++ [v]) i) : ¬ Together (vs ++ [v]) i (vs ++ [v]).length := by
  intro htogether
  have hlt : i < vs.length := by
    have hle := hi.lt_length
    rw [List.length_append, List.length_singleton] at hle
    refine Nat.lt_of_le_of_ne (Nat.le_of_lt_succ hle) ?_
    rintro rfl
    obtain ⟨-, hfilled, hfence⟩ := plain_concat_self.mp hi
    simp [hfilled, hfence] at hv
  have hlast := htogether vs.length hlt (by simp)
  rw [emptyAt_concat_self, fenceAt_concat_self] at hlast
  simp [hlast] at hv

private theorem inside_concat (vs : List String) (v : String) :
    Inside (vs ++ [v]) (vs.length + 1) ↔ (Inside vs vs.length ↔ isFence v = false) := by
  rw [inside_succ (by simp), inside_concat_of_le le_rfl, fenceAt_concat_self]

private theorem outside (h : Scanned vs done last?)
    (hopen : ∀ p, last? = some p → p.form ≠ .fenced) :
    ¬ Inside vs vs.length := fun hin => by
  obtain ⟨p, hp, hform⟩ := h.inside.mp hin
  exact hopen p hp hform

/-- A line that follows a plain one at once goes with it. -/
theorem parted_of_concat (h : Scanned vs done last?) {i : Nat} (hlt : i < vs.length)
    (hi : Plain (vs ++ [v]) i) (htogether : Together (vs ++ [v]) i (vs ++ [v]).length) :
    ∃ p, last? = some p ∧ p.form = .paragraph ∧ i ∈ p.places := by
  refine h.parted i ((plain_concat_of_lt hlt).mp hi) ?_
  rw [← together_concat (v := v) le_rfl]
  exact fun m hm hmk => htogether m hm (by simp; omega)

/-- An empty line outside regions ends a paragraph. -/
theorem drop (h : Scanned vs done last?) (hopen : ∀ p, last? = some p → p.form ≠ .fenced)
    (hempty : v.isEmpty = true) : Scanned (vs ++ [v]) (done ++ last?.toList) none where
  segmentation := by simpa using h.segmentation.drop hempty (h.outside hopen)
  inside := by simp [inside_concat, isFence_of_isEmpty hempty, h.outside hopen]
  ends := by simp
  noFence := by simp
  parted i hi htogether := absurd htogether (parted_concat (.inl hempty) hi)

/-- A fence outside regions opens one. -/
theorem openFence (h : Scanned vs done last?) (hopen : ∀ p, last? = some p → p.form ≠ .fenced)
    (hempty : v.isEmpty = false) (hfence : isFence v = true) :
    Scanned (vs ++ [v]) (done ++ last?.toList) (some ⟨.fenced, vs.length, 1⟩) where
  segmentation := h.segmentation.add (h.outside hopen) hempty (.inl ⟨hfence, rfl⟩)
  inside := by simp [inside_concat, hfence, h.outside hopen]
  ends := by simp
  noFence p hp _ m hm hmk := by
    obtain rfl := Option.some.inj hp
    rw [List.length_append, List.length_singleton] at hmk
    exact absurd hm (Nat.not_lt.mpr (Nat.le_of_lt_succ hmk))
  parted i hi htogether := absurd htogether (parted_concat (.inr hfence) hi)

/-- Another line opens a paragraph if nothing is open. -/
theorem openParagraph (h : Scanned vs done none) (hempty : v.isEmpty = false)
    (hfence : isFence v = false) :
    Scanned (vs ++ [v]) done (some ⟨.paragraph, vs.length, 1⟩) where
  segmentation := by
    have hparted (i : Nat) (hi : Plain vs i) : ¬ Together vs i vs.length := fun htogether => by
      obtain ⟨p, hp, -⟩ := h.parted i hi htogether
      cases hp
    simpa using h.segmentation.add (h.outside (by simp)) hempty (.inr ⟨hfence, rfl, hparted⟩)
  inside := by simp [inside_concat, hfence, h.outside (by simp)]
  ends := by simp
  noFence p hp hform := by
    obtain rfl := Option.some.inj hp
    cases hform
  parted i hi htogether := by
    refine ⟨_, rfl, rfl, ?_⟩
    rcases Segmentation.eq_or_lt hi with rfl | hlt
    · simp [Segment.mem_places]
    · obtain ⟨p, hp, -⟩ := h.parted_of_concat hlt hi htogether
      cases hp

/-- An open paragraph takes a line that is neither empty nor a fence. -/
theorem joinParagraph (h : Scanned vs done (some p)) (hp : p.form = .paragraph)
    (hempty : v.isEmpty = false) (hfence : isFence v = false) :
    Scanned (vs ++ [v]) done (some p.extend) where
  segmentation := by
    have hparted (i : Nat) (hi : Plain vs i) : i ∈ p.places ∨ ¬ Together vs i vs.length := by
      by_cases htogether : Together vs i vs.length
      · obtain ⟨q, hq, -, hqi⟩ := h.parted i hi htogether
        exact .inl (Option.some.inj hq ▸ hqi)
      · exact .inr htogether
    exact h.segmentation.extend (h.ends p rfl)
      (.inr ⟨hp, h.outside (by simp [hp]), hempty, hfence, hparted⟩)
  inside := by simp [inside_concat, hfence, h.outside (by simp [hp]), Segment.extend, hp]
  ends q hq := by
    obtain rfl := Option.some.inj hq
    rw [List.length_append, ← h.ends p rfl]
    rfl
  noFence q hq hform := by
    obtain rfl := Option.some.inj hq
    rw [show p.extend.form = p.form from rfl, hp] at hform
    cases hform
  parted i hi htogether := by
    refine ⟨_, rfl, hp, (Segmentation.mem_extend (h.ends p rfl)).mpr ?_⟩
    rcases Segmentation.eq_or_lt hi with rfl | hlt
    · exact .inr rfl
    · obtain ⟨q, hq, -, hqi⟩ := h.parted_of_concat hlt hi htogether
      exact .inl (Option.some.inj hq ▸ hqi)

private theorem extend_fenced (h : Scanned vs done (some p)) (hp : p.form = .fenced) (v : String) :
    Segmentation (vs ++ [v]) (done ++ [p.extend]) :=
  h.segmentation.extend (h.ends p rfl)
    (.inl ⟨hp, h.inside.mpr ⟨p, rfl, hp⟩, h.noFence p rfl hp⟩)

/-- An open region takes every line. -/
theorem joinFence (h : Scanned vs done (some p)) (hp : p.form = .fenced)
    (hfence : isFence v = false) :
    Scanned (vs ++ [v]) done (some p.extend) where
  segmentation := h.extend_fenced hp v
  inside := by
    have hin : Inside vs vs.length := h.inside.mpr ⟨p, rfl, hp⟩
    simp [inside_concat, hfence, hin, Segment.extend, hp]
  ends q hq := by
    obtain rfl := Option.some.inj hq
    rw [List.length_append, ← h.ends p rfl]
    rfl
  noFence q hq _ m hm hmk := by
    obtain rfl := Option.some.inj hq
    rw [List.length_append, List.length_singleton] at hmk
    rcases Nat.lt_succ_iff_lt_or_eq.mp hmk with hlt | rfl
    · rw [fenceAt_concat_of_lt hlt]
      exact h.noFence p rfl hp m hm hlt
    · rw [fenceAt_concat_self, hfence]
  parted i hi htogether := by
    have hin : Inside vs vs.length := h.inside.mpr ⟨p, rfl, hp⟩
    rcases Segmentation.eq_or_lt hi with rfl | hlt
    · exact absurd hin (plain_concat_self.mp hi).1
    · obtain ⟨q, hq, hform, -⟩ := h.parted_of_concat hlt hi htogether
      obtain rfl := Option.some.inj hq
      rw [hp] at hform
      cases hform

/-- The next fence closes a region. -/
theorem closeFence (h : Scanned vs done (some p)) (hp : p.form = .fenced)
    (hfence : isFence v = true) :
    Scanned (vs ++ [v]) (done ++ [p.extend]) none where
  segmentation := by simpa using h.extend_fenced hp v
  inside := by
    have hin : Inside vs vs.length := h.inside.mpr ⟨p, rfl, hp⟩
    simp [inside_concat, hfence, hin]
  ends := by simp
  noFence := by simp
  parted i hi htogether := absurd htogether (parted_concat (.inr hfence) hi)

end Scanned

end PromptOutline.Document
