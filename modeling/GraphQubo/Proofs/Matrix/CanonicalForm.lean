import GraphQubo.Proofs.Matrix.Folding

/-!
# GraphQubo.Proofs.Matrix.CanonicalForm

The folded matrix is the canonical form of an energy function.

Folding moves each coefficient below the diagonal to the opposite cell above it.  An
assignment that sets two bits pays both cells, so no energy changes; and the energies in
turn determine the folded cells.  In exact arithmetic two matrices of one dimension have
the same energies exactly when they fold to the same matrix.

* `energy_toUpperTriangular` — folding keeps the energies;
* `isUpper_toUpperTriangular`, `isUpperTriangular_iff` — nothing is left below the diagonal;
* `toUpperTriangular_transpose` — opposite cells may be exchanged first;
* `folding_is_canonical` — all of it, and the comparison of two matrices.
-/

namespace GraphQubo.Matrix

open Finset

variable {m m' : Matrix Rat}

/-! ## Below the diagonal -/

theorem cell_of_not_inRange {i j : Nat} (h : ¬m.InRange i j) : m.cell i j = 0 := by
  rw [cell, get?_eq_none_iff.2 h]
  rfl

/-- A cell of the folded matrix is the folded cell. -/
theorem cell_toUpperTriangular {i j : Nat} (h : m.InRange i j) :
    m.toUpperTriangular.cell i j = m.foldedCell i j := by
  unfold InRange at h
  rw [cell, toUpperTriangular, get?_ofFn, if_pos h]
  rfl

/-- Below the diagonal folding leaves nothing. -/
theorem foldedCell_of_lt {i j : Nat} (h : j < i) : m.foldedCell i j = 0 := by
  rw [foldedCell, if_neg (Nat.lt_asymm h), if_neg (Nat.ne_of_gt h)]

/-- On the diagonal folding changes nothing. -/
theorem foldedCell_self (i : Nat) : m.foldedCell i i = m.cell i i := by
  rw [foldedCell, if_neg (Nat.lt_irrefl i), if_pos rfl]

/-- Folding leaves nothing below the diagonal. -/
theorem isUpper_toUpperTriangular (m : Matrix Rat) : m.toUpperTriangular.IsUpper := by
  intro i j hji
  by_cases hij : m.InRange i j
  · rw [cell_toUpperTriangular hij, foldedCell_of_lt hji]
  · exact cell_of_not_inRange hij

/-- The check looks at every cell below the diagonal. -/
theorem isUpperTriangular_iff : m.isUpperTriangular = true ↔ m.IsUpper := by
  have hzero : ∀ x : Rat, Coefficient.isZero x = true ↔ x = 0 := fun x => beq_iff_eq
  simp only [isUpperTriangular, allCells, List.all_eq_true, List.mem_flatMap, List.mem_map,
    List.mem_range, Bool.or_eq_true, decide_eq_true_eq, hzero]
  constructor
  · intro h i j hji
    by_cases hij : m.InRange i j
    · exact (h _ ⟨i, hij.1, j, hij.2, rfl⟩).resolve_left (Nat.not_le.2 hji)
    · exact cell_of_not_inRange hij
  · rintro h _ ⟨i, -, j, -, rfl⟩
    exact (Nat.lt_or_ge j i).symm.imp_right (h i j)

/-! ## What folding keeps -/

/-- What two bits pay for a pair of cells that were folded into one. -/
theorem foldedCell_opposite {i j : Nat} (h : i < j) (x y : Rat) :
    x * (m.foldedCell i j * y) + y * (m.foldedCell j i * x) =
      x * (m.cell i j * y) + y * (m.cell j i * x) := by
  rw [foldedCell_of_lt h, foldedCell, if_pos h]
  ring

/-- Folding keeps the energy of every assignment. -/
theorem energy_toUpperTriangular (m : Matrix Rat) (bits : List Bool) :
    m.toUpperTriangular.energy bits = m.energy bits := by
  by_cases hlen : bits.length = m.dimension
  · have hfolded : ∀ i ∈ range m.dimension, ∀ j ∈ range m.dimension,
        m.toUpperTriangular.cell i j = m.foldedCell i j := fun i hi j hj =>
      cell_toUpperTriangular ⟨mem_range.1 hi, mem_range.1 hj⟩
    rw [m.energy_eq_ok hlen, m.toUpperTriangular.energy_eq_ok hlen]
    refine congrArg Except.ok ?_
    calc ∑ i ∈ range m.dimension, ∑ j ∈ range m.dimension,
          bitAt bits i * (m.toUpperTriangular.cell i j * bitAt bits j)
        = ∑ i ∈ range m.dimension, ∑ j ∈ range m.dimension,
            bitAt bits i * (m.foldedCell i j * bitAt bits j) :=
          sum_congr rfl fun i hi => sum_congr rfl fun j hj => by rw [hfolded i hi j hj]
      _ = ∑ i ∈ range m.dimension, ∑ j ∈ range m.dimension,
            bitAt bits i * (m.cell i j * bitAt bits j) := by
          rw [sum_sum_eq_lt, sum_sum_eq_lt m.dimension fun i j =>
            bitAt bits i * (m.cell i j * bitAt bits j)]
          simp only [foldedCell_self]
          refine congrArg (_ + ·) (sum_congr rfl fun i _ => sum_congr rfl fun j _ => ?_)
          exact ite_congr rfl (fun hij => foldedCell_opposite hij _ _) fun _ => rfl
  · have hlen' : ¬bits.length = m.toUpperTriangular.dimension := hlen
    rw [energy, energy, if_neg hlen, if_neg hlen']
    rfl

/-- There is nothing to fold in a folded matrix. -/
theorem toUpperTriangular_toUpperTriangular (m : Matrix Rat) :
    m.toUpperTriangular.toUpperTriangular = m.toUpperTriangular :=
  m.isUpper_toUpperTriangular.toUpperTriangular_eq_self rfl

theorem cell_transpose (m : Matrix Rat) (i j : Nat) : m.transpose.cell i j = m.cell j i := by
  rw [cell, cell, get?_transpose]

/-- A cell and its opposite are added in either order. -/
theorem toUpperTriangular_transpose (m : Matrix Rat) :
    m.transpose.toUpperTriangular = m.toUpperTriangular := by
  have hfolded : ∀ i j, m.transpose.foldedCell i j = m.foldedCell i j := by
    intro i j
    simp only [foldedCell, cell_transpose, add_comm (m.cell j i)]
    refine if_congr Iff.rfl rfl (ite_congr rfl (fun hij => ?_) fun _ => rfl)
    rw [hij]
  exact congrArg (ofFn m.dimension) (funext₂ hfolded)

/-- The folded matrix is upper triangular, has the energies of the matrix, is its own folded
matrix and that of the transpose.  Matrices of one dimension have the same energies exactly
when they fold to the same matrix. -/
theorem folding_is_canonical (m : Matrix Rat) :
    m.toUpperTriangular.isUpperTriangular = true ∧
      (∀ bits, m.toUpperTriangular.energy bits = m.energy bits) ∧
      m.toUpperTriangular.toUpperTriangular = m.toUpperTriangular ∧
      m.transpose.toUpperTriangular = m.toUpperTriangular ∧
      ∀ m' : Matrix Rat, m'.dimension = m.dimension →
        ((∀ bits, bits.length = m.dimension → m.energy bits = m'.energy bits) ↔
          m.toUpperTriangular = m'.toUpperTriangular) := by
  refine ⟨isUpperTriangular_iff.2 m.isUpper_toUpperTriangular, m.energy_toUpperTriangular,
    m.toUpperTriangular_toUpperTriangular, m.toUpperTriangular_transpose, fun m' hdim => ?_⟩
  constructor
  · exact toUpperTriangular_eq_of_energy hdim.symm
  · intro h bits _
    rw [← m.energy_toUpperTriangular, h, m'.energy_toUpperTriangular]

/-- Two variables of weight one that are coupled through both triangles. -/
def coupledPair (above below : Rat) : Matrix Rat :=
  ofFn 2 fun i j => if i = j then 1 else if i < j then above else below

/-- How a coupling is split between the triangles cannot be seen, but its strength can. -/
theorem folding_is_canonical_coupledPair :
    (∀ bits, bits.length = 2 → (coupledPair 1 3).energy bits = (coupledPair 4 0).energy bits) ∧
      ¬∀ bits, bits.length = 2 → (coupledPair 1 3).energy bits = (coupledPair 4 1).energy bits := by
  obtain ⟨-, -, -, -, hcompare⟩ := folding_is_canonical (coupledPair 1 3)
  have hsame := hcompare (coupledPair 4 0) rfl
  have hother := hcompare (coupledPair 4 1) rfl
  constructor
  · exact hsame.2 (by decide +kernel)
  · exact fun h => absurd (hother.1 h) (by decide +kernel)

end GraphQubo.Matrix
