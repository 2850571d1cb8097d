import PromptOutline.Token

/-!
# Keywords

A word is a keyword when it spells one of the five keywords with its colon, in upper or lower case.
Only the ASCII letters have a case here.
-/

namespace PromptOutline.Keyword

/-- The kinds that have a keyword. -/
def kinds : List TokenKind := [.action, .context, .embedFiles, .includeFile, .role]

/-- A word with its ASCII letters in lower case. -/
def lower (cs : List Char) : List Char := cs.map Char.toLower

/-- The kind that a word is the keyword of. -/
def classify? (word : List Char) : Option TokenKind :=
  kinds.find? fun k => lower (k.name ++ ":").toList == lower word

/-- The spelling of a kind is classified as that kind. -/
theorem classify?_spelling {k : TokenKind} {s : String} (h : k.spelling? = some s) :
    classify? s.toList = some k := by
  cases k <;> simp [TokenKind.spelling?, TokenKind.keyword?, TokenKind.isBlock,
    TokenKind.isDirective] at h <;> subst h <;> decide +kernel

/-- A word that is classified is the keyword of a block or of a directive. -/
theorem keyword?_of_classify? {word : List Char} {k : TokenKind} (h : classify? word = some k) :
    k.isBlock = true ∨ k.isDirective = true := by
  have hk : k ∈ kinds := List.mem_of_find?_eq_some h
  simp only [kinds, List.mem_cons, List.not_mem_nil, or_false] at hk
  rcases hk with rfl | rfl | rfl | rfl | rfl <;> decide

end PromptOutline.Keyword
