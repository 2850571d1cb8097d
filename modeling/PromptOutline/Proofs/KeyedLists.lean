import Mathlib.Logic.Basic

/-!
# Lists of keys with values

A list of pairs is read by the first pair of a key. A value is set where its key stands already, or
behind the other pairs; either way it is then what the key leads to, and every other key leads to
what it led to before.
-/

namespace PromptOutline.Keyed

variable {α β : Type} [BEq α] [LawfulBEq α] [DecidableEq α]

private theorem lookup_pair (a : α) (b : β) (pairs : List (α × β)) (k : α) :
    ((a, b) :: pairs).lookup k = if k = a then some b else pairs.lookup k := by
  rw [List.lookup_cons]
  by_cases hk : k = a <;> simp [hk, beq_false_of_ne]

private theorem lookup_map_set (pairs : List (α × β)) (l k : α) (e : β) :
    (pairs.map fun (a, b) => if a = l then (a, e) else (a, b)).lookup k =
      if k = l then (pairs.lookup k).map fun _ => e else pairs.lookup k := by
  induction pairs with
  | nil => simp
  | cons pair pairs ih =>
    obtain ⟨a, b⟩ := pair
    have hhead : (if a = l then (a, e) else (a, b)) = (a, if a = l then e else b) := by
      split <;> rfl
    rw [List.map_cons]
    dsimp only
    rw [hhead, lookup_pair, lookup_pair, ih]
    by_cases hk : k = a
    · subst hk
      rw [if_pos rfl, if_pos rfl]
      split <;> rfl
    · rw [if_neg hk, if_neg hk]

/-- A value that was set is what its key leads to. -/
theorem lookup_set (pairs : List (α × β)) (l k : α) (e : β) :
    (if (pairs.lookup l).isSome then pairs.map fun (a, b) => if a = l then (a, e) else (a, b)
      else pairs ++ [(l, e)]).lookup k = if k = l then some e else pairs.lookup k := by
  split
  · next hsome =>
    rw [lookup_map_set]
    by_cases hkl : k = l
    · obtain ⟨old, hold⟩ := Option.isSome_iff_exists.mp hsome
      rw [if_pos hkl, if_pos hkl, hkl, hold, Option.map_some]
    · rw [if_neg hkl, if_neg hkl]
  · next hnone =>
    rw [List.lookup_append, lookup_pair, List.lookup_nil]
    by_cases hkl : k = l
    · rw [Option.not_isSome_iff_eq_none] at hnone
      rw [if_pos hkl, if_pos hkl, hkl, hnone, Option.none_or]
    · rw [if_neg hkl, if_neg hkl, Option.or_none]

end PromptOutline.Keyed
