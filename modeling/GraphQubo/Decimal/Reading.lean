/-!
# GraphQubo.Decimal.Reading

Reading digits: whole numbers in a radix, and the double nearest to a decimal.

`Float.ofScientific` rounds `m · 10^e` correctly, but it computes that power;
a decimal far outside the range of a double is settled before it is asked.
-/

namespace GraphQubo.Decimal

/-- The value of a digit of some radix up to sixteen. -/
def digitValue? (c : Char) : Option Nat :=
  if '0' ≤ c ∧ c ≤ '9' then some (c.toNat - '0'.toNat)
  else if 'a' ≤ c ∧ c ≤ 'f' then some (c.toNat - 'a'.toNat + 10)
  else if 'A' ≤ c ∧ c ≤ 'F' then some (c.toNat - 'A'.toNat + 10)
  else none

/-- The value of the digits so far followed by one more. -/
def digitStep (radix value : Nat) (c : Char) : Option Nat :=
  match digitValue? c with
  | some d => if d < radix then some (value * radix + d) else none
  | none => none

/-- The number that a non-empty list of digits of the radix writes. -/
def natural? (radix : Nat) (digits : List Char) : Option Nat :=
  if digits.isEmpty then none
  else digits.foldlM (digitStep radix) 0

/-- The double nearest to `digits · 10^exponent`, ties to even; an infinity
from the halfway point above the largest double on. -/
def toFloat (negative : Bool) (digits : Nat) (exponent : Int) : Float :=
  let magnitude : Float :=
    if digits = 0 then 0
    else if 400 < exponent then Float.ofBits 0x7ff0000000000000
    else if exponent + (Nat.toDigits 10 digits).length < -400 then 0
    else Float.ofScientific digits (exponent < 0) exponent.natAbs
  if negative then -magnitude else magnitude

/-- Splits a list of characters into its leading decimal digits and the rest. -/
def spanDigits (cs : List Char) : List Char × List Char :=
  (cs.takeWhile Char.isDigit, cs.dropWhile Char.isDigit)

/-- An exponent: an optional sign and at least one digit, to the end. -/
def exponent? (cs : List Char) : Option Int :=
  match cs with
  | '-' :: ds => (natural? 10 ds).map fun n => -(n : Int)
  | '+' :: ds => (natural? 10 ds).map Int.ofNat
  | ds => (natural? 10 ds).map Int.ofNat

/-- The double that an unsigned decimal writes: digits, optionally a point and
more digits, optionally `e` or `E` and an exponent.  One of the two digit runs
around the point may be empty. -/
def unsigned? (cs : List Char) : Option (Nat × Int) := do
  let (whole, rest) := spanDigits cs
  let (fraction, rest) := match rest with
    | '.' :: rest => spanDigits rest
    | _ => ([], rest)
  let digits ← natural? 10 (whole ++ fraction)
  let exponent ← match rest with
    | [] => some 0
    | c :: rest => if c = 'e' ∨ c = 'E' then exponent? rest else none
  return (digits, exponent - fraction.length)

end GraphQubo.Decimal
