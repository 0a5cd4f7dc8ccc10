import GraphQubo.Matrix.Basic
import GraphQubo.Coefficient

/-!
# GraphQubo.Matrix.Energy

The energy `xᵗQx` of a binary assignment `x`.

It is the dot product of `x` with `Qx`, and each entry of `Qx` is the dot
product of a row of `Q` with `x`.  Every product is formed, also with a zero of
`x`.  In exact arithmetic the order of a sum does not matter; for doubles it is
part of the answer:

1. two vectors that lie in consecutive cells are summed in eight lanes: element
   `8k + i` goes to lane `i`, then lanes `i` and `i + 4` are added, the four
   sums follow each other, and the last elements (fewer than eight) come at the
   end;
2. a row of a matrix in column order does not lie in consecutive cells, and is
   summed from left to right.
-/

namespace GraphQubo

open Coefficient

variable {K : Type} [Coefficient K]

/-- The products of two vectors, added from left to right onto `sum`. -/
def dotOnto (sum : K) : List K → List K → K
  | a :: as, b :: bs => dotOnto (sum + a * b) as bs
  | _, _ => sum

/-- Eight partial sums. -/
structure Lanes (K : Type) where
  l0 : K
  l1 : K
  l2 : K
  l3 : K
  l4 : K
  l5 : K
  l6 : K
  l7 : K

/-- Eight sums without any element. -/
def Lanes.zero : Lanes K := ⟨0, 0, 0, 0, 0, 0, 0, 0⟩

/-- The sum of all lanes: each of the first four with its partner, in order. -/
def Lanes.total (p : Lanes K) : K :=
  0 + (p.l0 + p.l4) + (p.l1 + p.l5) + (p.l2 + p.l6) + (p.l3 + p.l7)

/-- The dot product in eight lanes, from what the lanes hold already. -/
def Lanes.dot (p : Lanes K) : List K → List K → K
  | a0 :: a1 :: a2 :: a3 :: a4 :: a5 :: a6 :: a7 :: as,
    b0 :: b1 :: b2 :: b3 :: b4 :: b5 :: b6 :: b7 :: bs =>
    Lanes.dot
      ⟨p.l0 + a0 * b0, p.l1 + a1 * b1, p.l2 + a2 * b2, p.l3 + a3 * b3,
        p.l4 + a4 * b4, p.l5 + a5 * b5, p.l6 + a6 * b6, p.l7 + a7 * b7⟩ as bs
  | as, bs => dotOnto p.total as bs

/-- The dot product of two vectors in consecutive cells. -/
def consecutiveDot (as bs : List K) : K := Lanes.zero.dot as bs

/-- The coefficient of a bit: one if it is set, else zero. -/
def indicator (bit : Bool) : K := if bit then 1 else 0

namespace Matrix

/-- The dot product of a row with a vector. -/
def rowDot (m : Matrix K) (x : List K) (i : Nat) : K :=
  match m.order with
  | .rowMajor => consecutiveDot (m.row i) x
  | .columnMajor => dotOnto 0 (m.row i) x

/-- The energy of an assignment, one bit for each row. -/
def energy (m : Matrix K) (bits : List Bool) : Except (Error K) K :=
  if bits.length = m.dimension then
    let x := bits.map indicator
    .ok (consecutiveDot x ((List.range m.dimension).map (m.rowDot x)))
  else .error (.dimensionMismatch m.dimension bits.length)

end Matrix

end GraphQubo
