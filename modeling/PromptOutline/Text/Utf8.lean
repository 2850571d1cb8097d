/-!
# Texts from bytes

Bytes are decoded as UTF-8 into characters, with `none` for each longest start of a sequence that no
character continues. Strict reading refuses such bytes; lossy reading puts one replacement character
for each.
-/

namespace PromptOutline.Text.Utf8

/-- Read the bytes that continue a character: how many are missing, the range of the next one, the
bits so far, and how many were taken. -/
def follow :
    (missing : Nat) → (low high : Nat) → (bits taken : Nat) → List UInt8 → Option Char × Nat
  | 0, _, _, bits, taken, _ => (some (Char.ofNat bits), taken)
  | _ + 1, _, _, _, taken, [] => (none, taken)
  | missing + 1, low, high, bits, taken, b :: rest =>
    if low ≤ b.toNat && b.toNat ≤ high then
      follow missing 0x80 0xBF (bits * 64 + b.toNat % 64) (taken + 1) rest
    else (none, taken)

/-- The character that starts with a byte, and how many of the bytes behind it were taken. -/
def first (lead : UInt8) (rest : List UInt8) : Option Char × Nat :=
  let n := lead.toNat
  if n < 0x80 then (some (Char.ofNat n), 0)
  else if n < 0xC2 then (none, 0)
  else if n < 0xE0 then follow 1 0x80 0xBF (n % 32) 0 rest
  else if n = 0xE0 then follow 2 0xA0 0xBF 0 0 rest
  else if n = 0xED then follow 2 0x80 0x9F 13 0 rest
  else if n < 0xF0 then follow 2 0x80 0xBF (n % 16) 0 rest
  else if n = 0xF0 then follow 3 0x90 0xBF 0 0 rest
  else if n < 0xF4 then follow 3 0x80 0xBF (n % 8) 0 rest
  else if n = 0xF4 then follow 3 0x80 0x8F 4 0 rest
  else (none, 0)

/-- The characters that bytes stand for, with `none` where they stand for no character. -/
def decode : List UInt8 → List (Option Char)
  | [] => []
  | lead :: rest =>
    (first lead rest).1 :: decode (rest.drop (first lead rest).2)
  termination_by bytes => bytes.length
  decreasing_by simp only [List.length_drop, List.length_cons]; omega

/-- The text that bytes stand for, if all of them are valid. -/
def text? (bytes : List UInt8) : Option String := ((decode bytes).mapM id).map String.ofList

/-- The text that bytes stand for, with replacement characters. -/
def lossy (bytes : List UInt8) : String :=
  String.ofList ((decode bytes).map (·.getD '\uFFFD'))

/-- The bytes of a text. -/
def encode (s : String) : List UInt8 := s.toUTF8.toList

end PromptOutline.Text.Utf8
