import GraphQubo.Matrix.Cells
import GraphQubo.Matrix.Render

/-!
# GraphQubo.Equivalence

Whether two matrices describe the same energy, up to rounding.

1. Two cells are close when they differ by at most `1e-8` plus `1e-5` of the
   second one's magnitude.
2. A reference and a compiled matrix are equivalent when their upper triangular
   forms are close, so it does not matter how either splits a coefficient
   between the two triangles.
3. A failed comparison says how: the largest difference or the two dimensions,
   with both upper triangular forms; or the first cell below the diagonal.
-/

namespace GraphQubo

open Coefficient

variable {K : Type} [Coefficient K]

/-- The absolute part of the tolerance. -/
def absoluteTolerance : K := 1e-8

/-- The part of the tolerance that grows with the cell. -/
def relativeTolerance : K := 1e-5

/-- Whether `x` is within the tolerance around `y`. -/
def close (x y : K) : Bool :=
  atMost (magnitude (x - y)) (absoluteTolerance + relativeTolerance * magnitude y)

/-- Whether two matrices have one dimension and close cells. -/
def Matrix.isClose (m n : Matrix K) : Bool :=
  m.dimension == n.dimension && (m.paired n).all fun p => close p.1 p.2

/-- How two matrices that should be equivalent are not. -/
structure Mismatch (K : Type) where
  /-- The largest difference, unless the dimensions differ. -/
  difference : Option K
  expected : Matrix K
  actual : Matrix K

/-- How the compiled matrix fails to be equivalent to the reference, if it does. -/
def mismatch? (reference compiled : Matrix K) : Option (Mismatch K) :=
  let expected := reference.toUpperTriangular
  let actual := compiled.toUpperTriangular
  if actual.isClose expected then none
  else some ⟨expected.maxAbsDifference? actual, expected, actual⟩

/-- The report on a mismatch. -/
def Mismatch.message (m : Mismatch Float) : String :=
  let difference := match m.difference with
    | some d => "max abs difference " ++ Decimal.text d
    | none => s!"dimension {m.expected.dimension} vs {m.actual.dimension}"
  s!"matrices differ ({difference})\nreference:\n" ++ m.expected.render
    ++ "\ncompiled:\n" ++ m.actual.render

/-- The report on a cell below the diagonal. -/
def lowerCellMessage (m : Matrix Float) (c : Cell Float) : String :=
  s!"lower cell ({c.row}, {c.col}) = " ++ Decimal.text c.value ++ "\n" ++ m.render

end GraphQubo
