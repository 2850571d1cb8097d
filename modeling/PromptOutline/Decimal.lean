/-!
# Decimal numbers

A decimal is a whole number of units of some power of ten. Decimals are read from text and rounded
to the nearest number that has 53 binary digits, with an exponent in the range of 64-bit floating
point.
-/

namespace PromptOutline

/-- The number `digits * 10 ^ exponent`, with a sign. -/
structure Decimal where
  negative : Bool
  digits : Nat
  exponent : Int
  deriving Repr, DecidableEq, Inhabited

namespace Decimal

/-- The number that ASCII digits stand for. -/
def ofDigits (cs : List Char) : Nat :=
  cs.foldl (fun n c => 10 * n + (c.toNat - '0'.toNat)) 0

/-- The digits at the start, and the rest. -/
def spanDigits (cs : List Char) : List Char × List Char := cs.span Char.isDigit

/-- A sign at the start, and the rest. -/
def spanSign : List Char → Bool × List Char
  | '-' :: rest => (true, rest)
  | '+' :: rest => (false, rest)
  | rest => (false, rest)

/-- An exponent that makes up a whole text; the empty text stands for zero. -/
def readExponent? : List Char → Option Int
  | [] => some 0
  | e :: rest =>
    if e = 'e' || e = 'E' then
      match spanSign rest with
      | (negative, digits) =>
        if digits ≠ [] && digits.all Char.isDigit then
          some (if negative then -(ofDigits digits : Int) else ofDigits digits)
        else none
    else none

/-- The decimal that a text stands for: a sign, digits with a point before, among or behind them,
and an exponent, of which only the digits must be there. -/
def ofText? (cs : List Char) : Option Decimal :=
  let (negative, cs) := spanSign cs
  let (whole, cs) := spanDigits cs
  let (fraction, cs) := match cs with
    | '.' :: rest => spanDigits rest
    | rest => ([], rest)
  if whole = [] ∧ fraction = [] then none
  else (readExponent? cs).map fun e =>
    { negative, digits := ofDigits (whole ++ fraction), exponent := e - fraction.length }

/-- The least whole number that does not round to a finite 64-bit floating point number. -/
def overflowBound : Nat := Nat.pow 2 1024 - Nat.pow 2 970

/-- The number of digits before the point, if they are written out. -/
def wholeDigits (d : Decimal) : Int := (toString d.digits).length + d.exponent

/-- Whether a decimal rounds to a finite 64-bit floating point number. The largest of them have 309
digits before the point, and any other number of digits decides by itself. -/
def isFinite (d : Decimal) : Bool :=
  if d.digits = 0 || d.wholeDigits < 309 then true
  else if 309 < d.wholeDigits then false
  else if d.exponent < 0 then d.digits < overflowBound * Nat.pow 10 d.exponent.natAbs
  else d.digits * Nat.pow 10 d.exponent.natAbs < overflowBound

end Decimal

end PromptOutline
