import GraphQubo.Matrix.Basic

/-!
# GraphQubo.Matrix.Cells

Cells of a matrix one by one: which are not zero, whether any lies below the
diagonal, and how far two matrices are apart.

A NaN cell is not zero, and a comparison with NaN is false.
-/

namespace GraphQubo

/-- A cell with its place. -/
structure Cell (K : Type) where
  row : Nat
  col : Nat
  value : K
  deriving DecidableEq, Repr

namespace Matrix

open Coefficient

variable {K : Type} [Coefficient K]

/-- Every cell, row after row. -/
def allCells (m : Matrix K) : List (Cell K) :=
  (List.range m.dimension).flatMap fun i =>
    (List.range m.dimension).map fun j => ⟨i, j, m.cell i j⟩

/-- The cells that are not exactly zero, row after row. -/
def nonzero (m : Matrix K) : List (Cell K) := m.allCells.filter fun c => !isZero c.value

/-- How many cells are not exactly zero. -/
def nonzeroCount (m : Matrix K) : Nat := m.nonzero.length

/-- Whether every cell is exactly zero. -/
def isZero (m : Matrix K) : Bool := m.allCells.all fun c => Coefficient.isZero c.value

/-- The first cell below the diagonal that is not exactly zero. -/
def firstLower? (m : Matrix K) : Option (Cell K) := m.nonzero.find? fun c => c.col < c.row

/-- Whether every cell below the diagonal is exactly zero. -/
def isUpperTriangular (m : Matrix K) : Bool :=
  m.allCells.all fun c => c.row ≤ c.col || Coefficient.isZero c.value

/-- A cell of the folded matrix: a cell and its opposite are added in the upper one. -/
def foldedCell (m : Matrix K) (i j : Nat) : K :=
  if i < j then m.cell i j + m.cell j i
  else if i = j then m.cell i j
  else 0

/-- Folds every cell below the diagonal into the opposite one above it; the energy of
every assignment stays what it was. -/
def toUpperTriangular (m : Matrix K) : Matrix K := ofFn m.dimension m.foldedCell

/-- Two matrices of one dimension, cell by cell. -/
def paired (m n : Matrix K) : List (K × K) :=
  m.allCells.map fun c => (c.value, n.cell c.row c.col)

/-- Pairs of cells are compared at every place of the first matrix. -/
theorem forall_mem_paired {m n : Matrix K} {P : K × K → Prop} :
    (∀ p ∈ m.paired n, P p) ↔ ∀ i j, m.InRange i j → P (m.cell i j, n.cell i j) := by
  simp only [paired, allCells, List.mem_map, List.mem_flatMap, List.mem_range]
  constructor
  · intro h i j hij
    exact h _ ⟨⟨i, j, m.cell i j⟩, ⟨i, hij.1, j, hij.2, rfl⟩, rfl⟩
  · rintro h _ ⟨_, ⟨i, hi, j, hj, rfl⟩, rfl⟩
    exact h i j ⟨hi, hj⟩

/-- The largest absolute difference of two cells at one place. -/
def maxAbsDifference? (m n : Matrix K) : Option K :=
  if m.dimension = n.dimension then
    some ((m.paired n).foldl (fun most p => larger most (magnitude (p.1 - p.2))) 0)
  else none

/-- Whether two matrices differ by at most `tolerance`, measured by their
largest absolute difference. -/
def approxEq (m n : Matrix K) (tolerance : K) : Bool :=
  match m.maxAbsDifference? n with
  | some difference => atMost difference tolerance
  | none => false

/-- Whether two matrices have the same cells. -/
def sameCells (m n : Matrix K) : Bool :=
  m.dimension == n.dimension && (m.paired n).all fun p => same p.1 p.2

end Matrix

end GraphQubo
