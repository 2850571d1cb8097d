import PromptOutline.Decimal.Binary

/-!
# TOML values

Dates and times are kept as text in their standard form.
-/

namespace PromptOutline.Toml

/-- A TOML value. -/
inductive Value where
  | text (s : String)
  | integer (i : Int)
  | float (x : Binary)
  | bool (b : Bool)
  | moment (s : String)
  | array (items : List Value)
  | table (fields : List (String × Value))
  deriving Repr, Inhabited

end PromptOutline.Toml
