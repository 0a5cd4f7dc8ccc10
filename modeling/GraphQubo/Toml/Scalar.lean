import GraphQubo.Decimal.Reading
import GraphQubo.Toml.Value

/-!
# GraphQubo.Toml.Scalar

Numbers, flags, dates and times.

1. A whole number is decimal with an optional sign and no leading zero, or
   hexadecimal, octal or binary without a sign; it fits in 64 bits.
2. A number has a whole part like a decimal whole number, and then a fraction,
   an exponent or both; `inf` and `nan` take a sign as well.  A positive number
   beyond the largest double is refused.
3. Single underscores may stand between digits.
4. A date has a day that its month has; a time has hours, minutes and seconds,
   and after a date a distance from universal time.
-/

namespace GraphQubo.Toml

open Decimal

/-- Takes the underscores out of digits; each must stand between two of them. -/
def withoutUnderscores? : List Char → Option (List Char)
  | [] => some []
  | '_' :: _ => none
  | c :: '_' :: d :: rest =>
    if d = '_' then none else (withoutUnderscores? (d :: rest)).map (c :: ·)
  | [_, '_'] => none
  | c :: rest => (withoutUnderscores? rest).map (c :: ·)

/-- The number that digits of a radix write, underscores between them. -/
def digits? (radix : Nat) (cs : List Char) : Option Nat :=
  (withoutUnderscores? cs).bind (Decimal.natural? radix)

/-- A sign in front of something: whether it is a minus, and the rest. -/
def splitSign : List Char → Bool × List Char
  | '-' :: rest => (true, rest)
  | '+' :: rest => (false, rest)
  | rest => (false, rest)

/-- Whether digits start with a zero that is not all of them. -/
def hasLeadingZero : List Char → Bool
  | '0' :: _ :: _ => true
  | _ => false

/-- A whole number within 64 bits. -/
def inWord? (i : Int) : Option Value :=
  if -(integerLimit : Int) ≤ i ∧ i < integerLimit then some (.integer i) else none

/-- A whole number. -/
def integer? (cs : List Char) : Option Value :=
  match cs with
  | '0' :: 'x' :: ds => (digits? 16 ds).bind fun n => inWord? n
  | '0' :: 'o' :: ds => (digits? 8 ds).bind fun n => inWord? n
  | '0' :: 'b' :: ds => (digits? 2 ds).bind fun n => inWord? n
  | _ =>
    let (negative, ds) := splitSign cs
    if hasLeadingZero ds then none
    else (digits? 10 ds).bind fun n => inWord? (if negative then -(n : Int) else n)

/-- The exponent of a number: `e`, an optional sign and digits; none is zero. -/
def exponentPart? : List Char → Option Int
  | [] => some 0
  | c :: rest =>
    if c = 'e' ∨ c = 'E' then
      let (negative, ds) := splitSign rest
      (digits? 10 ds).map fun n => if negative then -(n : Int) else n
    else none

/-- Whether a character belongs to a run of digits. -/
def isDigitOrUnderscore (c : Char) : Bool := c.isDigit || c == '_'

/-- A number with a fraction or an exponent, without its sign: the digits and
the power of ten they are scaled by. -/
def decimal? (cs : List Char) : Option (Nat × Int) := do
  let wholePart := cs.takeWhile isDigitOrUnderscore
  let rest := cs.dropWhile isDigitOrUnderscore
  let wholeDigits ← withoutUnderscores? wholePart
  if wholeDigits.isEmpty ∨ hasLeadingZero wholeDigits then none
  match rest with
  | '.' :: rest =>
    let fraction ← withoutUnderscores? (rest.takeWhile isDigitOrUnderscore)
    if fraction.isEmpty then none
    let n ← Decimal.natural? 10 (wholeDigits ++ fraction)
    let e ← exponentPart? (rest.dropWhile isDigitOrUnderscore)
    return (n, e - (fraction.length : Int))
  | [] => none
  | _ => return (← Decimal.natural? 10 wholeDigits, ← exponentPart? rest)

/-- Positive infinity. -/
def positiveInfinity : Float := Float.ofBits 0x7ff0000000000000

/-- A number. -/
def number? (cs : List Char) : Option Value :=
  let (negative, rest) := splitSign cs
  if rest = "inf".toList then
    some (.number (if negative then -positiveInfinity else positiveInfinity))
  else if rest = "nan".toList then some (.number (Float.ofBits 0x7ff8000000000000))
  else do
    let (n, e) ← decimal? rest
    let x := toFloat negative n e
    if x == positiveInfinity then none else some (.number x)

/-! ## Dates and times -/

/-- A decimal number of exactly `width` digits at the front. -/
def fixedDigits? (width : Nat) (cs : List Char) : Option (Nat × List Char) :=
  let ds := cs.take width
  if ds.length = width ∧ ds.all Char.isDigit then
    (Decimal.natural? 10 ds).map fun n => (n, cs.drop width)
  else none

/-- A given character at the front. -/
def expect? (c : Char) : List Char → Option (List Char)
  | d :: rest => if c = d then some rest else none
  | [] => none

/-- The number of days of a month. -/
def daysInMonth (year month : Nat) : Nat :=
  if month = 2 then
    if year % 4 = 0 ∧ (year % 100 ≠ 0 ∨ year % 400 = 0) then 29 else 28
  else if month = 4 ∨ month = 6 ∨ month = 9 ∨ month = 11 then 30
  else 31

/-- What follows a date. -/
def afterDate? (cs : List Char) : Option (List Char) := do
  let (year, cs) ← fixedDigits? 4 cs
  let (month, cs) ← fixedDigits? 2 (← expect? '-' cs)
  let (day, cs) ← fixedDigits? 2 (← expect? '-' cs)
  if 1 ≤ month ∧ month ≤ 12 ∧ 1 ≤ day ∧ day ≤ daysInMonth year month then some cs else none

/-- What follows a time of day. -/
def afterTime? (cs : List Char) : Option (List Char) := do
  let (hour, cs) ← fixedDigits? 2 cs
  let (minute, cs) ← fixedDigits? 2 (← expect? ':' cs)
  let (second, cs) ← fixedDigits? 2 (← expect? ':' cs)
  if ¬(hour < 24 ∧ minute < 60 ∧ second ≤ 60) then none
  match cs with
  | '.' :: rest =>
    if (rest.takeWhile Char.isDigit).isEmpty then none
    else some (rest.dropWhile Char.isDigit)
  | cs => some cs

/-- Whether the rest is a distance from universal time, or nothing. -/
def isOffset (cs : List Char) : Bool :=
  match cs with
  | [] => true
  | ['Z'] | ['z'] => true
  | c :: rest =>
    (c == '+' || c == '-') && match fixedDigits? 2 rest with
      | some (hour, ':' :: rest) =>
        match fixedDigits? 2 rest with
        | some (minute, []) => hour < 24 && minute < 60
        | _ => false
      | _ => false

/-- Whether the characters are a date, a time, or a date and a time. -/
def isMoment (cs : List Char) : Bool :=
  match afterDate? cs with
  | some [] => true
  | some (c :: rest) =>
    (c == 'T' || c == 't' || c == ' ') && match afterTime? rest with
      | some rest => isOffset rest
      | none => false
  | none => afterTime? cs == some []

/-- The value that a run of characters without blanks writes. -/
def scalar? (cs : List Char) : Option Value :=
  if cs = "true".toList then some (.flag true)
  else if cs = "false".toList then some (.flag false)
  else if isMoment cs then some (.moment (String.ofList cs))
  else (integer? cs).or (number? cs)

end GraphQubo.Toml
