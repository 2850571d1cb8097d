import PromptOutline.Decimal

/-!
# Binary floating point

A binary number has a significand of at most 53 binary digits and an exponent of base two. Decimals
are rounded to the nearest one, and a half goes to the even neighbour. Writing takes the fewest
digits that read back as the same number. All arithmetic is exact on natural numbers.
-/

namespace PromptOutline

/-- A number of 64-bit floating point. -/
inductive Binary where
  /-- The number `significand * 2 ^ exponent`, with a sign. -/
  | finite (negative : Bool) (significand : Nat) (exponent : Int)
  | infinite (negative : Bool)
  | notANumber
  deriving Repr, DecidableEq, Inhabited

namespace Binary

/-- A quotient rounded to the nearest natural number, a half to the even one. -/
def roundDiv (n d : Nat) : Nat :=
  let q := n / d
  let r := n % d
  if d < 2 * r || (d = 2 * r && q % 2 = 1) then q + 1 else q

/-- A power of two as a quotient of natural numbers. -/
def powTwo (e : Int) : Nat × Nat :=
  if e < 0 then (1, Nat.pow 2 e.natAbs) else (Nat.pow 2 e.natAbs, 1)

/-- A power of ten as a quotient of natural numbers. -/
def powTen (e : Int) : Nat × Nat :=
  if e < 0 then (1, Nat.pow 10 e.natAbs) else (Nat.pow 10 e.natAbs, 1)

/-- The exponent of the leading binary digit of a positive quotient. -/
def leading (n d : Nat) : Int :=
  let e : Int := (Nat.log2 n : Int) - Nat.log2 d
  let (a, b) := powTwo e
  if n * b < a * d then e - 1 else e

/-- The number nearest to a positive quotient. -/
def ofQuotient (negative : Bool) (n d : Nat) : Binary :=
  let e := max (leading n d - 52) (-1074)
  let (a, b) := powTwo e
  let m := roundDiv (n * b) (d * a)
  let (m, e) := if m = Nat.pow 2 53 then (Nat.pow 2 52, e + 1) else (m, e)
  if 971 < e then infinite negative else finite negative m e

/-- The number nearest to a decimal. Exponents far out of range decide by themselves. -/
def ofDecimal (d : Decimal) : Binary :=
  if d.digits = 0 || d.wholeDigits < -400 then finite d.negative 0 0
  else if 400 < d.wholeDigits then infinite d.negative
  else
    let (a, b) := powTen d.exponent
    ofQuotient d.negative (d.digits * a) b

/-- Whether a number is zero. -/
def isZero : Binary → Bool
  | finite _ m _ => m = 0
  | _ => false

/-- The nearest natural number of 64 bits, a half going up; negative numbers and those that are none
give zero. -/
def toWord : Binary → Nat
  | finite negative m e =>
    if negative then 0
    else
      let (a, b) := powTwo e
      min ((2 * m * a + b) / (2 * b)) (UInt64.size - 1)
  | infinite negative => if negative then 0 else UInt64.size - 1
  | notANumber => 0

/-- Whether the decimal `digits * 10 ^ unit` reads back as `m * 2 ^ e`. The numbers that do lie
between the points halfway to the neighbours, ends included when `m` is even; below a power of two
the neighbour is half as far away. -/
def readsBack (m : Nat) (e : Int) (digits : Nat) (unit : Int) : Bool :=
  let (ta, tb) := powTen unit
  let (ba, bb) := powTwo (e - 2)
  let x := digits * ta * bb
  let low := (4 * m - if m = Nat.pow 2 52 ∧ -1074 < e then 1 else 2) * ba * tb
  let high := (4 * m + 2) * ba * tb
  if m % 2 = 0 then low ≤ x && x ≤ high else low < x && x < high

/-- The nearer of the two neighbours of `m * 2 ^ e` among the multiples of `10 ^ unit`, of those
that read back. -/
def onGrid? (m : Nat) (e : Int) (unit : Int) : Option (Nat × Int) :=
  let (ta, tb) := powTen unit
  let (ba, bb) := powTwo e
  let below := (m * ba * tb) / (bb * ta)
  let nearer := 2 * m * ba * tb ≤ (2 * below + 1) * bb * ta
  match readsBack m e below unit, readsBack m e (below + 1) unit with
  | true, true => some (if nearer then below else below + 1, unit)
  | true, false => some (below, unit)
  | false, true => some (below + 1, unit)
  | false, false => none

/-- The exponent of the leading decimal digit of `m * 2 ^ e`, or one less. -/
def leadingTen (m : Nat) (e : Int) : Int :=
  let (a, b) := powTwo e
  if b ≤ m * a then ((toString (m * a / b)).length : Int) - 1
  else -((toString (b / (m * a))).length : Int)

/-- The fewest digits that read back, with the exponent of their unit. Seventeen digits always
do. -/
def shortest (m : Nat) (e : Int) : Nat × Int :=
  ((List.range 19).findSome? fun (n : Nat) => onGrid? m e (leadingTen m e - n)).getD (0, 0)

/-- The digits of a number in positional notation, without an exponent. -/
def positional (digits : Nat) (unit : Int) : String :=
  let cs := (toString digits).toList
  if 0 ≤ unit then String.ofList (cs ++ List.replicate unit.toNat '0')
  else
    let places := unit.natAbs
    let padded := List.replicate (places + 1 - cs.length) '0' ++ cs
    let whole := padded.take (padded.length - places)
    let fraction := padded.drop (padded.length - places)
    let trimmed := (fraction.reverse.dropWhile (· == '0')).reverse
    String.ofList (if trimmed = [] then whole else whole ++ '.' :: trimmed)

/-- A number in positional notation with the fewest digits; a whole number has no point. -/
def toText : Binary → String
  | finite negative m e =>
    let (digits, unit) := if m = 0 then (0, 0) else shortest m e
    (if negative then "-" else "") ++ positional digits unit
  | infinite negative => if negative then "-inf" else "inf"
  | notANumber => "NaN"

/-- A number in positional notation that always has a point. -/
def toPointText (x : Binary) : String :=
  match x with
  | finite _ _ _ => if x.toText.toList.contains '.' then x.toText else x.toText ++ ".0"
  | _ => x.toText

end Binary

end PromptOutline
