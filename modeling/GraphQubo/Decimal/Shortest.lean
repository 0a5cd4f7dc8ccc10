import GraphQubo.Decimal.Binary64

/-!
# GraphQubo.Decimal.Shortest

The shortest decimal that reads back as the same double.

1. A double `m · 2^q` is what every real number between the two halfway
   points to its neighbours reads as; the halfway points themselves belong to
   it exactly when `m` is even.
2. Of all powers of ten, the largest whose grid has a point in that interval
   is chosen; if such a point exists, one of the two grid points next to the
   value is one.
3. Of two points the nearer one is written, and a tie goes away from zero.
4. The text is positional, without an exponent: `0.1`, `-2`, `1000000`.

Everything is counted in quarters of the last binary place, where the value
is `4m` and the halfway points are whole numbers.
-/

namespace GraphQubo.Decimal

/-- A non-negative decimal `digits · 10^exponent`. -/
structure Scaled where
  digits : Nat
  exponent : Int
  deriving DecidableEq, Repr

/-- The reals that read as one double, as fractions over `unit`: from `low` to
`high`, with the double itself at `value`. -/
structure Interval where
  low : Nat
  value : Nat
  high : Nat
  unit : Nat
  closed : Bool

/-- The interval of `significand · 2^exponent`.  Below a power of two the
doubles are twice as dense, so the lower halfway point is half as far. -/
def Interval.ofParts (significand : Nat) (exponent : Int) : Interval :=
  let below := if significand = hiddenBit ∧ -1074 < exponent then 1 else 2
  let scale := powerOfTwo (exponent - 2).toNat
  { low := (4 * significand - below) * scale
    value := 4 * significand * scale
    high := (4 * significand + 2) * scale
    unit := powerOfTwo (2 - exponent).toNat
    closed := significand % 2 == 0 }

/-- The same interval measured in units of `10^exponent`. -/
def Interval.inPowersOfTen (i : Interval) (exponent : Int) : Interval :=
  let up := powerOfTen (-exponent).toNat
  { i with
    low := i.low * up
    value := i.value * up
    high := i.high * up
    unit := i.unit * powerOfTen exponent.toNat }

/-- Whether the whole number `n` lies in the interval. -/
def Interval.contains (i : Interval) (n : Nat) : Bool :=
  let place := n * i.unit
  if i.closed then i.low ≤ place && place ≤ i.high else i.low < place && place < i.high

/-- The whole number that stands for the interval, if there is one: of the two
around the value the nearer that lies inside, the upper one on a tie. -/
def Interval.whole? (i : Interval) : Option Nat :=
  let down := i.value / i.unit
  match i.contains down, i.contains (down + 1) with
  | true, true =>
    some (if 2 * (i.value - down * i.unit) < i.unit then down else down + 1)
  | true, false => some down
  | false, true => some (down + 1)
  | false, false => none

/-- A power of ten above `significand · 2^exponent`, at most two powers too
high: `30103 / 100000` is the decimal logarithm of two from above. -/
def decimalBound (significand : Nat) (exponent : Int) : Int :=
  ((significand.log2 : Int) + exponent + 1) * 30103 / 100000 + 2

/-- The shortest decimal of `significand · 2^exponent`.  Seventeen digits
always tell doubles apart, so twenty-one powers of ten from the bound down
hold the answer. -/
def shortest (significand : Nat) (exponent : Int) : Scaled :=
  let interval := Interval.ofParts significand exponent
  let top := decimalBound significand exponent
  let found := (List.range 21).findSome? fun (step : Nat) =>
    let power := top - (step : Int)
    ((interval.inPowersOfTen power).whole?).map fun n => Scaled.mk n power
  found.getD ⟨0, 0⟩

/-- Digits with a point before the last `places` of them, zeros filled in
where the digits do not reach it. -/
def withPoint (digits : List Char) (places : Nat) : String :=
  let padded := List.replicate (places + 1 - digits.length) '0' ++ digits
  let whole := padded.length - places
  String.ofList (padded.take whole ++ '.' :: padded.drop whole)

/-- Drops the zeros at the end of the digits of a fraction. -/
def Scaled.trim (s : Scaled) : Nat → Scaled
  | 0 => s
  | fuel + 1 =>
    if s.exponent < 0 ∧ s.digits % 10 = 0 then
      trim ⟨s.digits / 10, s.exponent + 1⟩ fuel
    else s

/-- The positional text of a decimal. -/
def Scaled.text (s : Scaled) : String :=
  let s := s.trim (-s.exponent).toNat
  let digits := Nat.toDigits 10 s.digits
  if 0 ≤ s.exponent then
    String.ofList (digits ++ List.replicate s.exponent.toNat '0')
  else
    withPoint digits (-s.exponent).toNat

/-- The text of a double: its shortest decimal, `NaN`, `inf` or `-inf`. -/
def text (x : Float) : String :=
  match Parts.of x with
  | .nan => "NaN"
  | .infinite negative => signText negative ++ "inf"
  | .finite negative 0 _ => signText negative ++ "0"
  | .finite negative significand exponent =>
    signText negative ++ (shortest significand exponent).text

end GraphQubo.Decimal
