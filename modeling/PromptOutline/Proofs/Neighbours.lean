import Mathlib.Data.List.Chain
import PromptOutline.Token

/-!
# Tokens that need a token before them

Some tokens make sense only behind another one: an indent behind a keyword line, the text of a
keyword line behind its keyword. `Guarded` says of a list that each such token has its host right
before it. Lists of this form can be put behind each other, because none of them starts with a
token in need.
-/

namespace PromptOutline

/-- Every token that `Needs` a host stands right behind a token that `Hosts` it. -/
structure Guarded (Needs Hosts : Token → Prop) (ts : List Token) : Prop where
  chain : ts.IsChain fun a b => Needs b → Hosts a
  head : ∀ t ∈ ts.head?, ¬ Needs t

namespace Guarded

variable {Needs Hosts : Token → Prop} {ts us : List Token}

/-- Nothing needs a host in the empty list. -/
theorem nil : Guarded Needs Hosts [] := ⟨.nil, by simp⟩

/-- Two lists in which every token has its host make one in which it has. -/
theorem append (hts : Guarded Needs Hosts ts) (hus : Guarded Needs Hosts us) :
    Guarded Needs Hosts (ts ++ us) := by
  constructor
  · apply List.isChain_append.mpr
    refine ⟨hts.chain, hus.chain, ?_⟩
    intro a _ b hb he
    exact absurd he (hus.head b hb)
  · cases ts with
    | nil => exact hus.head
    | cons t ts => exact hts.head

/-- Tokens of which none needs a host. -/
theorem of_forall (h : ∀ t ∈ ts, ¬ Needs t) : Guarded Needs Hosts ts := by
  induction ts with
  | nil => exact nil
  | cons t ts ih =>
    have hone : Guarded Needs Hosts [t] := ⟨.singleton t, by simpa using h t (by simp)⟩
    exact hone.append (ih fun u hu => h u (by simp [hu]))

/-- A token may stand behind tokens that end in a host for it. -/
theorem append_cons {t : Token} (hts : Guarded Needs Hosts ts) (hne : ts ≠ [])
    (hlast : ∀ a ∈ ts.getLast?, Hosts a) (hus : Guarded Needs Hosts us) :
    Guarded Needs Hosts (ts ++ t :: us) := by
  have htail : (t :: us).IsChain fun a b => Needs b → Hosts a := by
    change ([t] ++ us).IsChain _
    apply List.isChain_append.mpr
    refine ⟨.singleton t, hus.chain, ?_⟩
    intro a _ b hb he
    exact absurd he (hus.head b hb)
  constructor
  · apply List.isChain_append.mpr
    refine ⟨hts.chain, htail, ?_⟩
    intro a ha b _ _
    exact hlast a ha
  · obtain ⟨u, ts, rfl⟩ := List.exists_cons_of_ne_nil hne
    exact hts.head

/-- The token right before one that needs a host. -/
theorem host {before rest : List Token} {t : Token}
    (h : Guarded Needs Hosts (before ++ t :: rest)) (ht : Needs t) :
    ∃ a ∈ before.getLast?, Hosts a := by
  cases before using List.reverseRecOn with
  | nil => exact absurd ht (h.head t (by simp))
  | append_singleton before a =>
    have hpair := (List.isChain_append.mp h.chain).2.2
    exact ⟨a, by simp, hpair a (by simp) t (by simp) ht⟩

end Guarded

end PromptOutline
