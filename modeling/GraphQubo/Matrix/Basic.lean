import GraphQubo.Error

/-!
# GraphQubo.Matrix.Basic

Dense square matrices of coefficients.

Cell `(i, j)` holds the coefficient of `x_i · x_j`; a diagonal cell holds the
linear coefficient of `x_i`, because `x_i² = x_i` for a binary variable.  Cells
are accumulators: they start at zero and are only ever added to.

The cells lie in one array, row after row or column after column.  Transposing
a matrix leaves the array alone and swaps the two orders; which of them holds
decides how a row is summed (`GraphQubo.Matrix.Energy`).
-/

namespace GraphQubo

/-- How the cells of a matrix follow each other in memory. -/
inductive CellOrder where
  | rowMajor
  | columnMajor
  deriving DecidableEq, Repr

/-- The other order. -/
def CellOrder.swap : CellOrder → CellOrder
  | rowMajor => columnMajor
  | columnMajor => rowMajor

/-- A square matrix of side `dimension`. -/
structure Matrix (K : Type) where
  dimension : Nat
  order : CellOrder
  cells : Array K
  size_cells : cells.size = dimension * dimension
  deriving DecidableEq, Repr

namespace Matrix

variable {K : Type}

/-- Where a cell lies in the array. -/
def offset (m : Matrix K) (row col : Nat) : Nat :=
  match m.order with
  | .rowMajor => row * m.dimension + col
  | .columnMajor => col * m.dimension + row

/-- Whether a matrix has the cell. -/
def InRange (m : Matrix K) (row col : Nat) : Prop := row < m.dimension ∧ col < m.dimension

instance (m : Matrix K) (row col : Nat) : Decidable (m.InRange row col) :=
  inferInstanceAs (Decidable (_ ∧ _))

/-- Element `j` of line `i` lies in the array. -/
theorem line_lt {n i j : Nat} (hi : i < n) (hj : j < n) : i * n + j < n * n :=
  Nat.lt_of_lt_of_le (Nat.add_lt_add_left hj _) (by
    rw [← Nat.succ_mul]
    exact Nat.mul_le_mul_right n hi)

/-- An element of a line lies where no other one does. -/
theorem line_inj {n i j i' j' : Nat} (hj : j < n) (hj' : j' < n) :
    i * n + j = i' * n + j' ↔ i = i' ∧ j = j' := by
  refine ⟨fun h => ?_, fun h => by rw [h.1, h.2]⟩
  have hd := congrArg (· / n) h
  have hm := congrArg (· % n) h
  have hn : 0 < n := Nat.zero_lt_of_lt hj
  simp only [Nat.mul_comm _ n, Nat.mul_add_div hn, Nat.div_eq_of_lt hj, Nat.div_eq_of_lt hj',
    Nat.mul_add_mod, Nat.mod_eq_of_lt hj, Nat.mod_eq_of_lt hj', Nat.add_zero] at hd hm
  exact ⟨hd, hm⟩

/-- A cell of the matrix lies in the array. -/
theorem offset_lt {m : Matrix K} {row col : Nat} (h : m.InRange row col) :
    m.offset row col < m.cells.size := by
  rw [m.size_cells]
  unfold offset
  split
  · exact line_lt h.1 h.2
  · exact line_lt h.2 h.1

/-- No two cells share a place. -/
theorem offset_inj {m : Matrix K} {i j i' j' : Nat} (h : m.InRange i j) (h' : m.InRange i' j') :
    m.offset i j = m.offset i' j' ↔ i = i' ∧ j = j' := by
  unfold offset
  split
  · exact line_inj h.2 h'.2
  · exact (line_inj h.1 h'.1).trans And.comm

/-- The matrix whose cells are given by a function of row and column. -/
def ofFn (dimension : Nat) (f : Nat → Nat → K) : Matrix K where
  dimension
  order := .rowMajor
  cells := Array.ofFn fun i : Fin (dimension * dimension) =>
    f (i.val / dimension) (i.val % dimension)
  size_cells := Array.size_ofFn

/-- The matrix of zeros, as a value; `Matrix.allocate` asks for its memory. -/
def zeros [Zero K] (dimension : Nat) : Matrix K where
  dimension
  order := .rowMajor
  cells := Array.replicate (dimension * dimension) 0
  size_cells := Array.size_replicate

/-- A cell, if the matrix has it. -/
def get? (m : Matrix K) (row col : Nat) : Option K :=
  if m.InRange row col then m.cells[m.offset row col]? else none

/-- A cell; zero outside the matrix. -/
def cell [Zero K] (m : Matrix K) (row col : Nat) : K := (m.get? row col).getD 0

/-- Adds a value to a cell, which must be one of the matrix. -/
def add [Add K] (m : Matrix K) (row col : Nat) (value : K) : Except (Error K) (Matrix K) :=
  if m.InRange row col then
    .ok { m with
      cells := m.cells.modify (m.offset row col) (· + value)
      size_cells := (Array.size_modify ..).trans m.size_cells }
  else .error (.outsideMatrix row col)

/-- The matrix with rows and columns exchanged. -/
def transpose (m : Matrix K) : Matrix K := { m with order := m.order.swap }

/-! ## What each operation does to the cells -/

theorem get?_eq_none_iff {m : Matrix K} {i j : Nat} : m.get? i j = none ↔ ¬m.InRange i j := by
  unfold get?
  split
  · rename_i h
    simp [h, Array.getElem?_eq_getElem (offset_lt h)]
  · simpa

/-- The cells of a matrix made from a function. -/
theorem get?_ofFn (n : Nat) (f : Nat → Nat → K) (i j : Nat) :
    (ofFn n f).get? i j = if i < n ∧ j < n then some (f i j) else none := by
  unfold get?
  by_cases h : i < n ∧ j < n
  · have hp : 0 < n := Nat.zero_lt_of_lt h.1
    have hd : (i * n + j) / n = i := by
      rw [Nat.mul_comm, Nat.mul_add_div hp, Nat.div_eq_of_lt h.2, Nat.add_zero]
    have hm : (i * n + j) % n = j := by
      rw [Nat.mul_add_mod_self_right, Nat.mod_eq_of_lt h.2]
    rw [if_pos (show (ofFn n f).InRange i j from h), if_pos h]
    simp [ofFn, offset, line_lt h.1 h.2, hd, hm]
  · rw [if_neg (show ¬(ofFn n f).InRange i j from h), if_neg h]

/-- All cells of the matrix of zeros are zero. -/
theorem get?_zeros [Zero K] (n i j : Nat) :
    (zeros n : Matrix K).get? i j = if i < n ∧ j < n then some 0 else none := by
  unfold get?
  by_cases h : i < n ∧ j < n
  · rw [if_pos (show (zeros n : Matrix K).InRange i j from h), if_pos h]
    simp [zeros, offset, line_lt h.1 h.2]
  · rw [if_neg (show ¬(zeros n : Matrix K).InRange i j from h), if_neg h]

/-- An addition changes its cell and no other. -/
theorem get?_add [Add K] {m m' : Matrix K} {r c : Nat} {x : K} (h : m.add r c x = .ok m')
    (i j : Nat) :
    m'.get? i j = if i = r ∧ j = c then (m.get? i j).map (· + x) else m.get? i j := by
  unfold add at h
  split at h
  · rename_i hrc
    cases h
    by_cases hij : m.InRange i j
    · have hiff : m.offset r c = m.offset i j ↔ i = r ∧ j = c := by
        rw [offset_inj hrc hij, eq_comm, @eq_comm _ c]
      simp only [get?, InRange] at hij ⊢
      simp [hij, offset, ← hiff, Array.getElem?_modify]
    · have hne : ¬(i = r ∧ j = c) := fun h => hij (h.1 ▸ h.2 ▸ hrc)
      simp only [get?, InRange] at hij ⊢
      simp [hij, hne]
  · cases h

/-- Transposing swaps row and column. -/
theorem get?_transpose (m : Matrix K) (i j : Nat) : m.transpose.get? i j = m.get? j i := by
  have hr : m.transpose.InRange i j ↔ m.InRange j i := And.comm
  have ho : m.transpose.offset i j = m.offset j i := by
    cases h : m.order <;> simp [transpose, offset, h, CellOrder.swap]
  unfold get?
  simp [hr, ho, show m.transpose.cells = m.cells from rfl]

theorem transpose_transpose (m : Matrix K) : m.transpose.transpose = m := by
  obtain ⟨n, order, cells, size⟩ := m
  cases order <;> rfl

/-! ## Rows -/

variable [Zero K]

/-- The cells of a row. -/
def row (m : Matrix K) (i : Nat) : List K := (List.range m.dimension).map (m.cell i)

/-- A row, if the matrix has it. -/
def row? (m : Matrix K) (i : Nat) : Option (List K) :=
  if i < m.dimension then some (m.row i) else none

/-- All rows. -/
def rows (m : Matrix K) : List (List K) := (List.range m.dimension).map m.row

/-- Refuses a list of rows in which one, the first such, has another length
than there are rows. -/
def checkRows (rows : List (List K)) : Except (Error K) Unit :=
  match rows.find? fun r => r.length != rows.length with
  | none => .ok ()
  | some r => .error (.dimensionMismatch rows.length r.length)

/-- The matrix with the given rows, as many as each of them is long. -/
def ofRows (rows : List (List K)) : Except (Error K) (Matrix K) := do
  checkRows rows
  let table := (rows.map List.toArray).toArray
  return ofFn rows.length fun i j => (table.getD i #[]).getD j 0

/-- The matrix with the cells of an array of `rowCount` rows and `colCount`
columns, row after row; only a square array is one. -/
def ofArray (rowCount colCount : Nat) (cells : Array K) : Except (Error K) (Matrix K) :=
  if rowCount = colCount then
    if h : cells.size = rowCount * rowCount then
      .ok ⟨rowCount, .rowMajor, cells, h⟩
    else .error (.dimensionMismatch (rowCount * rowCount) cells.size)
  else .error (.dimensionMismatch rowCount colCount)

end Matrix

end GraphQubo
