import GraphQubo.Decimal.Shortest

/-!
# GraphQubo.Decimal.Fixed

Decimals with a fixed number of places: the exact binary value is rounded to
the nearest multiple of `10^-places`, and a value halfway between two goes to
the even one.  The sign is kept, also of a value that rounds to zero.
-/

namespace GraphQubo.Decimal

/-- The whole number nearest to `num / den`, the even one on a tie. -/
def roundHalfEven (num den : Nat) : Nat :=
  let down := num / den
  let rest := 2 * (num % den)
  if rest < den ∨ (rest = den ∧ down % 2 = 0) then down else down + 1

/-- A double with `places` decimals; `NaN`, `inf` and `-inf` have none. -/
def fixed (places : Nat) (x : Float) : String :=
  match Parts.of x with
  | .nan => "NaN"
  | .infinite negative => signText negative ++ "inf"
  | .finite negative significand exponent =>
    let scaled := roundHalfEven
      (significand * powerOfTen places * powerOfTwo exponent.toNat)
      (powerOfTwo (-exponent).toNat)
    signText negative ++ withPoint (Nat.toDigits 10 scaled) places

/-- A text moved to the right end of a field of `width` characters. -/
def padLeft (width : Nat) (s : String) : String :=
  String.ofList (List.replicate (width - s.length) ' ') ++ s

end GraphQubo.Decimal
