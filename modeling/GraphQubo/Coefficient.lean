import GraphQubo.Decimal.Shortest

/-!
# GraphQubo.Coefficient

The numbers that edge weights, penalty weights and matrix cells are made of.

Everything this library computes is written over a type `K` of coefficients
and uses only the operations listed here, in the order the definitions give.
Two kinds of coefficient exist:

* doubles, whose operations round and whose comparisons are false on NaN;
* rationals, whose operations are exact.

The class carries no laws.  What holds only in exact arithmetic is stated over
an exact type; what holds for every addition is stated over every `K`.
-/

namespace GraphQubo

/-- Arithmetic, comparison and text of coefficients.  `same`, `below` and
`atMost` are the tests `=`, `<` and `≤` as the program runs them. -/
class Coefficient (K : Type) where
  zero : Zero K
  one : One K
  add : Add K
  sub : Sub K
  mul : Mul K
  neg : Neg K
  natCast : NatCast K
  ofScientific : OfScientific K
  same : K → K → Bool
  below : K → K → Bool
  atMost : K → K → Bool
  isFinite : K → Bool
  text : K → String

/- The operations serve a type that is only known to be a coefficient.  Their
low priority leaves the operations that a type already has the first choice for
its own elements. -/

variable {K : Type}

instance (priority := 100) [c : Coefficient K] : Zero K := c.zero

instance (priority := 100) [c : Coefficient K] : One K := c.one

instance (priority := 100) [c : Coefficient K] : Add K := c.add

instance (priority := 100) [c : Coefficient K] : Sub K := c.sub

instance (priority := 100) [c : Coefficient K] : Mul K := c.mul

instance (priority := 100) [c : Coefficient K] : Neg K := c.neg

instance (priority := 100) [c : Coefficient K] : NatCast K := c.natCast

instance (priority := 100) [c : Coefficient K] : OfScientific K := c.ofScientific

namespace Coefficient

variable [Coefficient K]

/-- Whether a coefficient is exactly zero, of either sign. -/
def isZero (x : K) : Bool := same x 0

/-- The coefficient without its sign.  A difference from zero is never a zero
with a minus. -/
def magnitude (x : K) : K := if atMost x 0 then 0 - x else x

/-- The larger of two coefficients, the second one if they are equal.  A NaN on
the right is not larger than anything. -/
def larger (x y : K) : K := if atMost x y then y else x

/-- A whole number as a coefficient. -/
def whole (n : Nat) : K := Nat.cast n

end Coefficient

/-- Doubles. -/
instance : Coefficient Float where
  zero := Zero.ofOfNat0
  one := One.ofOfNat1
  add := inferInstance
  sub := inferInstance
  mul := inferInstance
  neg := inferInstance
  natCast := ⟨Float.ofNat⟩
  ofScientific := inferInstance
  same x y := x == y
  below x y := x < y
  atMost x y := x ≤ y
  isFinite := Float.isFinite
  text := Decimal.text

/-- Rationals: exact arithmetic. -/
instance : Coefficient Rat where
  zero := Zero.ofOfNat0
  one := One.ofOfNat1
  add := inferInstance
  sub := inferInstance
  mul := inferInstance
  neg := inferInstance
  natCast := inferInstance
  ofScientific := inferInstance
  same x y := x == y
  below x y := x < y
  atMost x y := x ≤ y
  isFinite _ := true
  text := toString

end GraphQubo
