/-!
# GraphQubo.Decimal.Binary64

The parts of a double, read off its 64 bits:

1. one sign bit, eleven exponent bits, fifty-two fraction bits;
2. an all-ones exponent is an infinity (fraction zero) or not a number;
3. a zero exponent is a subnormal `fraction · 2^-1074`;
4. any other exponent `e` is a normal `(2^52 + fraction) · 2^(e - 1075)`.

Every text this library writes for a coefficient starts from these parts, so
it is computed in exact integer arithmetic.
-/

namespace GraphQubo.Decimal

/-- What a double stands for: `significand · 2^exponent` with a sign, or one
of the values that are no number. -/
inductive Parts where
  | nan
  | infinite (negative : Bool)
  | finite (negative : Bool) (significand : Nat) (exponent : Int)
  deriving DecidableEq, Repr

/-- The leading bit of a normal significand, `2^52`, which is not stored. -/
def hiddenBit : Nat := 0x10000000000000

/-- A power of two. -/
def powerOfTwo (n : Nat) : Nat := Nat.pow 2 n

/-- A power of ten. -/
def powerOfTen (n : Nat) : Nat := Nat.pow 10 n

/-- The parts that a word of 64 bits encodes. -/
def Parts.ofBits (bits : UInt64) : Parts :=
  let negative := bits >>> 63 == 1
  let biased := (bits >>> 52 &&& 0x7ff).toNat
  let fraction := (bits &&& 0xfffffffffffff).toNat
  if biased = 0x7ff then
    if fraction = 0 then .infinite negative else .nan
  else if biased = 0 then
    .finite negative fraction (-1074)
  else
    .finite negative (hiddenBit + fraction) ((biased : Int) - 1075)

/-- The parts of a double. -/
def Parts.of (x : Float) : Parts := .ofBits x.toBits

/-- The sign in front of a text: a minus, or nothing. -/
def signText (negative : Bool) : String := if negative then "-" else ""

end GraphQubo.Decimal
