import Mathlib.Data.List.Forall2

/-!
# Results along a list

A function that may fail is applied to the members of a list, one after the other. Either it gives a
result for each of them, or the first member on which it fails decides.
-/

namespace PromptOutline

section

variable {α β ε : Type} {f : α → Except ε β} {xs : List α}

/-- The results are what the function gives for the members, side by side. -/
theorem mapM_eq_ok_iff {ys : List β} :
    xs.mapM f = .ok ys ↔ List.Forall₂ (fun x y => f x = .ok y) xs ys := by
  induction xs generalizing ys with
  | nil => simp [pure, Except.pure, eq_comm]
  | cons x xs ih =>
    rw [List.mapM_cons, List.forall₂_cons_left_iff]
    cases hx : f x with
    | error e => simp [bind, Except.bind]
    | ok y =>
      cases hxs : xs.mapM f with
      | error e =>
        simp only [bind, Except.bind, reduceCtorEq, false_iff]
        rintro ⟨z, zs, -, hzs, -⟩
        rw [ih.mpr hzs] at hxs
        cases hxs
      | ok zs =>
        simp only [bind, Except.bind, pure, Except.pure, Except.ok.injEq]
        constructor
        · rintro rfl
          exact ⟨y, zs, rfl, ih.mp hxs, rfl⟩
        · rintro ⟨z, others, rfl, hothers, rfl⟩
          rw [ih.mpr hothers, Except.ok.injEq] at hxs
          rw [hxs]

/-- The first member on which the function fails decides. -/
theorem mapM_eq_error_iff {e : ε} :
    xs.mapM f = .error e ↔ ∃ before x after, xs = before ++ x :: after ∧
      (∀ b ∈ before, ∃ y, f b = .ok y) ∧ f x = .error e := by
  induction xs with
  | nil => simp [pure, Except.pure]
  | cons x xs ih =>
    rw [List.mapM_cons]
    cases hx : f x with
    | error e' =>
      simp only [bind, Except.bind, Except.error.injEq]
      constructor
      · rintro rfl
        exact ⟨[], x, xs, rfl, by simp, hx⟩
      · rintro ⟨before, z, after, hxs, hbefore, hz⟩
        cases before with
        | nil =>
          cases hxs
          rw [hx] at hz
          exact Except.error.inj hz
        | cons b before =>
          cases hxs
          obtain ⟨y, hy⟩ := hbefore x List.mem_cons_self
          rw [hx] at hy
          cases hy
    | ok y =>
      have hrest : (do let zs ← xs.mapM f; pure (y :: zs)) = .error e ↔ xs.mapM f = .error e := by
        cases xs.mapM f <;> simp [bind, Except.bind, pure, Except.pure]
      refine hrest.trans (ih.trans ⟨?_, ?_⟩)
      · rintro ⟨before, z, after, rfl, hbefore, hz⟩
        refine ⟨x :: before, z, after, rfl, fun b hb => ?_, hz⟩
        rcases List.mem_cons.mp hb with rfl | hb
        · exact ⟨y, hx⟩
        · exact hbefore b hb
      · rintro ⟨before, z, after, hxs, hbefore, hz⟩
        cases before with
        | nil =>
          cases hxs
          rw [hx] at hz
          cases hz
        | cons b before =>
          cases hxs
          exact ⟨before, z, after, rfl, fun b hb => hbefore b (List.mem_cons_of_mem _ hb), hz⟩

/-- What comes of a list comes of its members. -/
theorem mem_of_mem_mapM {ys : List β} (h : xs.mapM f = .ok ys) :
    ∀ y ∈ ys, ∃ x ∈ xs, f x = .ok y := by
  have hsides := mapM_eq_ok_iff.mp h
  clear h
  induction hsides with
  | nil => simp
  | @cons x y xs ys hx _ ih =>
    intro z hz
    rcases List.mem_cons.mp hz with rfl | hz
    · exact ⟨x, List.mem_cons_self, hx⟩
    · obtain ⟨x', hx', hz'⟩ := ih z hz
      exact ⟨x', List.mem_cons_of_mem x hx', hz'⟩

/-- A list on which a function fails has a member on which it fails. -/
theorem exists_of_mapM_eq_error {e : ε} (h : xs.mapM f = .error e) : ∃ x ∈ xs, f x = .error e := by
  obtain ⟨before, x, after, rfl, -, hx⟩ := mapM_eq_error_iff.mp h
  exact ⟨x, by simp, hx⟩

/-- Where a function fails on a member, it fails on the list. -/
theorem exists_mapM_eq_error {x : α} {e : ε} (hx : x ∈ xs) (he : f x = .error e) :
    ∃ e', xs.mapM f = .error e' := by
  cases h : xs.mapM f with
  | error e' => exact ⟨e', rfl⟩
  | ok ys =>
    obtain ⟨i, hi, rfl⟩ := List.getElem_of_mem hx
    have hsides := mapM_eq_ok_iff.mp h
    have hy := hsides.get hi (hsides.length_eq ▸ hi)
    rw [List.get_eq_getElem, he] at hy
    cases hy

end

end PromptOutline
