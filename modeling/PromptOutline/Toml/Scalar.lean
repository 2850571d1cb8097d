import PromptOutline.Toml.Value

/-!
# TOML texts, numbers and dates

Each reader takes what it can from the start of a text and gives the rest, or fails.
-/

namespace PromptOutline.Toml

/-- The blanks inside a line. -/
def isBlank (c : Char) : Bool := c == ' ' || c == '\t'

/-- Drop blanks. -/
def skipBlanks (cs : List Char) : List Char := cs.dropWhile isBlank

/-- What follows a line end. -/
def afterNewline? : List Char → Option (List Char)
  | '\n' :: rest => some rest
  | '\r' :: '\n' :: rest => some rest
  | _ => none

/-- The characters that may stand in a quoted text as they are. -/
def isPlain (c : Char) : Bool := c == '\t' || (0x20 ≤ c.toNat && c.toNat != 0x7F)

/-- The value of a digit in base sixteen. -/
def hexValue? (c : Char) : Option Nat :=
  if c.isDigit then some (c.toNat - '0'.toNat)
  else if 'a' ≤ c && c ≤ 'f' then some (c.toNat - 'a'.toNat + 10)
  else if 'A' ≤ c && c ≤ 'F' then some (c.toNat - 'A'.toNat + 10)
  else none

/-- The character with a number of so many digits in base sixteen. -/
def readCodePoint (width : Nat) (cs : List Char) : Option (Char × List Char) := do
  let digits := cs.take width
  if digits.length < width then none
  else
    let n ← digits.foldlM (fun n c => (hexValue? c).map (16 * n + ·)) 0
    if n.isValidChar then some (Char.ofNat n, cs.drop width) else none

/-- The character behind a backslash. -/
def readEscape : List Char → Option (Char × List Char)
  | 'b' :: rest => some ('\x08', rest)
  | 't' :: rest => some ('\t', rest)
  | 'n' :: rest => some ('\n', rest)
  | 'f' :: rest => some ('\x0c', rest)
  | 'r' :: rest => some ('\r', rest)
  | '"' :: rest => some ('"', rest)
  | '\\' :: rest => some ('\\', rest)
  | 'u' :: rest => readCodePoint 4 rest
  | 'U' :: rest => readCodePoint 8 rest
  | _ => none

/-- The text up to the closing double quote, on one line. -/
def readBasic : (fuel : Nat) → List Char → Option (List Char × List Char)
  | 0, _ => none
  | _ + 1, [] => none
  | fuel + 1, c :: rest =>
    if c = '"' then some ([], rest)
    else if c = '\\' then do
      let (e, rest) ← readEscape rest
      let (body, rest) ← readBasic fuel rest
      some (e :: body, rest)
    else if isPlain c then do
      let (body, rest) ← readBasic fuel rest
      some (c :: body, rest)
    else none

/-- The text up to the closing single quote, on one line and without escapes. -/
def readLiteral : List Char → Option (List Char × List Char)
  | [] => none
  | c :: rest =>
    if c = '\x27' then some ([], rest)
    else if isPlain c then (readLiteral rest).map fun (body, rest) => (c :: body, rest)
    else none

/-- A run of three or more quotes closes a text of several lines; up to two of them belong to it. -/
def closing? (quote : Char) (cs : List Char) : Option (List Char × List Char) :=
  let run := (cs.takeWhile (· == quote)).length
  if run < 3 then none
  else some (List.replicate (min (run - 3) 2) quote, cs.drop (min run 5))

/-- Drop blanks and line ends. -/
def skipLines : (fuel : Nat) → List Char → List Char
  | 0, cs => cs
  | fuel + 1, cs =>
    match afterNewline? (skipBlanks cs) with
    | some rest => skipLines fuel rest
    | none => skipBlanks cs

/-- The text of several lines up to its closing double quotes. A backslash at the end of a line
takes the line end and the blanks behind it away. -/
def readBasicLines : (fuel : Nat) → List Char → Option (List Char × List Char)
  | 0, _ => none
  | _ + 1, [] => none
  | fuel + 1, c :: rest =>
    match closing? '"' (c :: rest) with
    | some closed => some closed
    | none =>
      if c = '\\' then
        match afterNewline? (skipBlanks rest) with
        | some rest => readBasicLines fuel (skipLines (rest.length + 1) rest)
        | none => do
          let (e, rest) ← readEscape rest
          let (body, rest) ← readBasicLines fuel rest
          some (e :: body, rest)
      else match afterNewline? (c :: rest) with
        | some rest => do
          let (body, rest) ← readBasicLines fuel rest
          some ('\n' :: body, rest)
        | none =>
          if isPlain c then do
            let (body, rest) ← readBasicLines fuel rest
            some (c :: body, rest)
          else none

/-- The text of several lines up to its closing single quotes, without escapes. -/
def readLiteralLines : (fuel : Nat) → List Char → Option (List Char × List Char)
  | 0, _ => none
  | _ + 1, [] => none
  | fuel + 1, c :: rest =>
    match closing? '\x27' (c :: rest) with
    | some closed => some closed
    | none =>
      match afterNewline? (c :: rest) with
      | some rest => do
        let (body, rest) ← readLiteralLines fuel rest
        some ('\n' :: body, rest)
      | none =>
        if isPlain c then do
          let (body, rest) ← readLiteralLines fuel rest
          some (c :: body, rest)
        else none

/-- A line end right behind the opening quotes does not belong to the text. -/
def dropFirstNewline (cs : List Char) : List Char := (afterNewline? cs).getD cs

/-- A quoted text of any kind. -/
def readText (cs : List Char) : Option (String × List Char) :=
  let read := match cs with
    | '"' :: '"' :: '"' :: rest => readBasicLines (rest.length + 1) (dropFirstNewline rest)
    | '\x27' :: '\x27' :: '\x27' :: rest =>
      readLiteralLines (rest.length + 1) (dropFirstNewline rest)
    | '"' :: rest => readBasic (rest.length + 1) rest
    | '\x27' :: rest => readLiteral rest
    | _ => none
  read.map fun (body, rest) => (String.ofList body, rest)

/-- Digits of some kind, with single underscores between them, which do not count. -/
def spanDigits (isDigit : Char → Bool) : List Char → List Char × List Char
  | [] => ([], [])
  | c :: rest =>
    if isDigit c then
      match rest with
      | '_' :: next :: after =>
        if isDigit next then
          let (digits, rest) := spanDigits isDigit (next :: after)
          (c :: digits, rest)
        else ([c], rest)
      | rest =>
        let (digits, rest) := spanDigits isDigit rest
        (c :: digits, rest)
    else ([], c :: rest)
  termination_by cs => cs.length

/-- The number that digits stand for. -/
def ofDigits (base : Nat) (digits : List Char) : Nat :=
  digits.foldl (fun n c => base * n + (hexValue? c).getD 0) 0

/-- A whole number of 64 bits with a sign. -/
def word? (i : Int) : Option Value :=
  if Int64.minValue.toInt ≤ i && i ≤ Int64.maxValue.toInt then some (.integer i) else none

/-- A whole number behind the mark for its base. -/
def readBased (base : Nat) (isDigit : Char → Bool) (cs : List Char) : Option (Value × List Char) :=
  match spanDigits isDigit cs with
  | ([], _) => none
  | (digits, rest) => (word? (ofDigits base digits)).map (·, rest)

/-- The digits behind a point, if there is one. -/
def readFraction : List Char → Option (List Char × List Char)
  | '.' :: rest =>
    match spanDigits Char.isDigit rest with
    | ([], _) => none
    | found => some found
  | rest => some ([], rest)

/-- The exponent, if there is one. -/
def readExponent : List Char → Option (Option Int × List Char)
  | c :: rest =>
    if c = 'e' || c = 'E' then
      let (negative, rest) := Decimal.spanSign rest
      match spanDigits Char.isDigit rest with
      | ([], _) => none
      | (digits, rest) =>
        let n : Int := ofDigits 10 digits
        some (some (if negative then -n else n), rest)
    else some (none, c :: rest)
  | [] => some (none, [])

/-- A whole number in base ten without leading zeros, or a decimal. A decimal too great for floating
point is refused. -/
def readDecimal (negative : Bool) (cs : List Char) : Option (Value × List Char) := do
  let (whole, rest) := match cs with
    | '0' :: rest => (['0'], rest)
    | rest => spanDigits Char.isDigit rest
  if whole.isEmpty then none
  else
    let hasPoint := rest.head? == some '.'
    let (fraction, rest) ← readFraction rest
    let (exponent?, rest) ← readExponent rest
    match hasPoint, exponent? with
    | false, none =>
      let n : Int := ofDigits 10 whole
      (word? (if negative then -n else n)).map (·, rest)
    | _, _ =>
      let x := Binary.ofDecimal
        { negative, digits := ofDigits 10 (whole ++ fraction),
          exponent := exponent?.getD 0 - fraction.length }
      if x = .infinite false then none else some (.float x, rest)

/-- What is left after a word at the start. -/
def afterWord? (word : String) (cs : List Char) : Option (List Char) :=
  if word.toList.isPrefixOf cs then some (cs.drop word.length) else none

/-- A number with or without a sign. -/
def readNumber (cs : List Char) : Option (Value × List Char) :=
  match cs with
  | '0' :: 'x' :: rest => readBased 16 (fun c => (hexValue? c).isSome) rest
  | '0' :: 'o' :: rest => readBased 8 (fun c => '0' ≤ c && c ≤ '7') rest
  | '0' :: 'b' :: rest => readBased 2 (fun c => c == '0' || c == '1') rest
  | _ =>
    let (negative, rest) := Decimal.spanSign cs
    match afterWord? "inf" rest, afterWord? "nan" rest with
    | some rest, _ => some (.float (.infinite negative), rest)
    | _, some rest => some (.float .notANumber, rest)
    | none, none => readDecimal negative rest

/-- Exactly so many digits, as a number between two bounds. -/
def readField (width low high : Nat) (cs : List Char) : Option (Nat × List Char) :=
  let digits := cs.take width
  let n := ofDigits 10 digits
  if digits.length = width && digits.all Char.isDigit && low ≤ n && n ≤ high then
    some (n, cs.drop width)
  else none

/-- What follows one character. -/
def afterChar? (c : Char) : List Char → Option (List Char)
  | d :: rest => if d = c then some rest else none
  | [] => none

/-- The number of days of a month. -/
def daysIn (year month : Nat) : Nat :=
  if month = 2 then
    if year % 4 = 0 && (year % 100 != 0 || year % 400 = 0) then 29 else 28
  else if [4, 6, 9, 11].contains month then 30
  else 31

/-- A number with leading zeros up to a width. -/
def padded (width n : Nat) : String :=
  let digits := (toString n).toList
  String.ofList (List.replicate (width - digits.length) '0' ++ digits)

/-- A date. -/
def readDate (cs : List Char) : Option (String × List Char) := do
  let (year, rest) ← readField 4 0 9999 cs
  let rest ← afterChar? '-' rest
  let (month, rest) ← readField 2 1 12 rest
  let rest ← afterChar? '-' rest
  let (day, rest) ← readField 2 1 (daysIn year month) rest
  some (padded 4 year ++ "-" ++ padded 2 month ++ "-" ++ padded 2 day, rest)

/-- The digits behind the point of a second, of which nine count, without zeros at the end. -/
def readSecondFraction : List Char → Option (String × List Char)
  | '.' :: rest =>
    match rest.span Char.isDigit with
    | ([], _) => none
    | (digits, rest) =>
      let kept := ((digits.take 9).reverse.dropWhile (· == '0')).reverse
      some (if kept = [] then "" else String.ofList ('.' :: kept), rest)
  | rest => some ("", rest)

/-- A time of day. -/
def readTime (cs : List Char) : Option (String × List Char) := do
  let (hour, rest) ← readField 2 0 23 cs
  let rest ← afterChar? ':' rest
  let (minute, rest) ← readField 2 0 59 rest
  let rest ← afterChar? ':' rest
  let (second, rest) ← readField 2 0 60 rest
  let (fraction, rest) ← readSecondFraction rest
  some (padded 2 hour ++ ":" ++ padded 2 minute ++ ":" ++ padded 2 second ++ fraction, rest)

/-- The distance from universal time, if it is given. -/
def readOffset : List Char → Option (String × List Char)
  | c :: rest =>
    if c = 'Z' || c = 'z' then some ("Z", rest)
    else if c = '+' || c = '-' then do
      let (hour, rest) ← readField 2 0 23 rest
      let rest ← afterChar? ':' rest
      let (minute, rest) ← readField 2 0 59 rest
      let sign := if c = '-' && 0 < hour + minute then "-" else "+"
      some (sign ++ padded 2 hour ++ ":" ++ padded 2 minute, rest)
    else some ("", c :: rest)
  | [] => some ("", [])

/-- A date, with a time behind it if there is one. -/
def readDateTime (cs : List Char) : Option (Value × List Char) := do
  let (date, rest) ← readDate cs
  match rest with
  | c :: after =>
    if c = 'T' || c = 't' || (c = ' ' && after.head?.any Char.isDigit) then do
      let (time, rest) ← readTime after
      let (offset, rest) ← readOffset rest
      some (.moment (date ++ "T" ++ time ++ offset), rest)
    else some (.moment date, rest)
  | [] => some (.moment date, [])

/-- A value that holds no other values. -/
def readScalar (cs : List Char) : Option (Value × List Char) :=
  match cs with
  | [] => none
  | c :: _ =>
    if c = '"' || c = '\x27' then (readText cs).map fun (s, rest) => (.text s, rest)
    else if c = 't' then (afterWord? "true" cs).map (.bool true, ·)
    else if c = 'f' then (afterWord? "false" cs).map (.bool false, ·)
    else
      let digits := (cs.takeWhile Char.isDigit).length
      let next := (cs.drop digits).head?
      if digits = 4 && next == some '-' then readDateTime cs
      else if digits = 2 && next == some ':' then
        (readTime cs).map fun (time, rest) => (.moment time, rest)
      else readNumber cs

end PromptOutline.Toml
