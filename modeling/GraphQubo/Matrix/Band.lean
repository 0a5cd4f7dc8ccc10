import GraphQubo.Matrix.Basic

/-!
# GraphQubo.Matrix.Band

Bands of consecutive rows.

A matrix splits into bands of `k` rows, the last of which may be shorter; `k`
of zero counts as one.  Every row lies in exactly one band, so bands can be
written independently of each other: `RowRange.add` writes a cell of the whole
matrix and refuses a row of another band.

A `Band` holds the cells of one band on their own.  Bands laid end to end are a
matrix again.
-/

namespace GraphQubo

/-- The rows from `first` up to, but without, `stop`. -/
structure RowRange where
  first : Nat
  stop : Nat
  deriving DecidableEq, Repr

/-- The bands of `rowsPerBand` rows of a matrix with `dimension` rows. -/
def rowBands (dimension rowsPerBand : Nat) : List RowRange :=
  let k := max rowsPerBand 1
  (List.range ((dimension + k - 1) / k)).map fun b =>
    ⟨b * k, min ((b + 1) * k) dimension⟩

namespace RowRange

variable {K : Type}

/-- Whether a row is one of the range. -/
def Holds (r : RowRange) (row : Nat) : Prop := r.first ≤ row ∧ row < r.stop

instance (r : RowRange) (row : Nat) : Decidable (r.Holds row) :=
  inferInstanceAs (Decidable (_ ∧ _))

/-- How many rows there are. -/
def height (r : RowRange) : Nat := r.stop - r.first

/-- Adds a value to a cell of the matrix in one of the rows. -/
def add [Add K] (r : RowRange) (m : Matrix K) (row col : Nat) (value : K) :
    Except (Error K) (Matrix K) :=
  if r.Holds row then m.add row col value else .error (.outsideMatrix row col)

end RowRange

/-- The cells of some rows of a matrix with `width` columns, row after row. -/
structure Band (K : Type) where
  rows : RowRange
  width : Nat
  cells : Array K

namespace Band

variable {K : Type}

/-- A band of zeros. -/
def zeros [Zero K] (rows : RowRange) (width : Nat) : Band K where
  rows
  width
  cells := Array.replicate (rows.height * width) 0

/-- Adds a value to a cell, named by its place in the whole matrix. -/
def add [Add K] (b : Band K) (row col : Nat) (value : K) : Except (Error K) (Band K) :=
  if b.rows.Holds row ∧ col < b.width then
    .ok { b with cells := b.cells.modify ((row - b.rows.first) * b.width + col) (· + value) }
  else .error (.outsideMatrix row col)

end Band

/-- The matrix made of bands laid end to end, which must fill it. -/
def Matrix.ofBands {K : Type} (dimension : Nat) (bands : List (Band K)) :
    Except (Error K) (Matrix K) :=
  ofArray dimension dimension (bands.foldl (fun cells b => cells ++ b.cells) #[])

end GraphQubo
