import GraphQubo.Matrix.Cells
import GraphQubo.Proofs.Matrix.Accumulation
import GraphQubo.Proofs.Matrix.ExactEnergy
import GraphQubo.Proofs.Matrix.PairSum

/-!
# GraphQubo.Proofs.Matrix.Folding

Folding a matrix, and what the energies tell of it.

In exact arithmetic the energies of all assignments determine the diagonal of a matrix and
the sums of opposite cells, for they are the energies of one bit and of two bits.  So the
folded matrix is determined, and a matrix that is upper triangular already is the folded
one.

* `Matrix.energy_bitsOn` — the energy of a set of rows;
* `Matrix.toUpperTriangular_eq_of_energy` — matrices with the same energies fold to the same;
* `Matrix.eq_of_energy` — upper triangular ones are the same.
-/

namespace GraphQubo

open Finset

/-- The assignment over `n` bits that sets the given ones. -/
def bitsOn (n : Nat) (s : Finset Nat) : List Bool := (List.range n).map fun i => decide (i ∈ s)

theorem length_bitsOn (n : Nat) (s : Finset Nat) : (bitsOn n s).length = n := by
  rw [bitsOn, List.length_map, List.length_range]

theorem bitAt_bitsOn {n i : Nat} (hi : i < n) (s : Finset Nat) :
    bitAt (bitsOn n s) i = if i ∈ s then 1 else 0 := by
  have hget : (bitsOn n s).getD i false = decide (i ∈ s) := by
    simp [bitsOn, List.getD_eq_getElem?_getD, hi]
  rw [bitAt, hget, indicator]
  exact if_congr decide_eq_true_iff rfl rfl

namespace Matrix

variable {m m' : Matrix Rat}

/-- A set of rows has the sum of the cells between them for its energy. -/
theorem energy_bitsOn (m : Matrix Rat) {s : Finset Nat} (hs : s ⊆ range m.dimension) :
    m.energy (bitsOn m.dimension s) = .ok (pairSum m.cell s) := by
  have hbit : ∀ i ∈ range m.dimension,
      bitAt (bitsOn m.dimension s) i = if i ∈ s then 1 else 0 := fun i hi =>
    bitAt_bitsOn (mem_range.1 hi) s
  have hset : ∀ f : Nat → Rat,
      ∑ i ∈ range m.dimension, (if i ∈ s then f i else 0) = ∑ i ∈ s, f i := by
    intro f
    rw [← sum_filter, filter_mem_eq_inter, inter_eq_right.2 hs]
  have hinner : ∀ i, ∑ j ∈ range m.dimension, m.cell i j * bitAt (bitsOn m.dimension s) j =
      ∑ j ∈ s, m.cell i j := by
    intro i
    rw [← hset]
    exact sum_congr rfl fun j hj => by rw [hbit j hj, mul_ite, mul_one, mul_zero]
  have houter : ∀ i ∈ range m.dimension,
      bitAt (bitsOn m.dimension s) i * ∑ j ∈ s, m.cell i j =
        if i ∈ s then ∑ j ∈ s, m.cell i j else 0 := by
    intro i hi
    rw [hbit i hi, ite_mul, one_mul, zero_mul]
  rw [m.energy_eq_ok (length_bitsOn _ s)]
  simp only [← mul_sum, hinner]
  rw [sum_congr rfl houter, hset, pairSum]

/-- Energies determine the sums of cells between the rows of a set. -/
theorem pairSum_cell_eq (hdim : m.dimension = m'.dimension)
    (h : ∀ bits, bits.length = m.dimension → m.energy bits = m'.energy bits) {s : Finset Nat}
    (hs : s ⊆ range m.dimension) : pairSum m.cell s = pairSum m'.cell s := by
  have heq := h _ (length_bitsOn m.dimension s)
  rw [m.energy_bitsOn hs, hdim, m'.energy_bitsOn (hdim ▸ hs)] at heq
  exact Except.ok.inj heq

/-- Energies determine the folded cells. -/
theorem foldedCell_eq_of_energy (hdim : m.dimension = m'.dimension)
    (h : ∀ bits, bits.length = m.dimension → m.energy bits = m'.energy bits) {i j : Nat}
    (hi : i < m.dimension) (hj : j < m.dimension) : m.foldedCell i j = m'.foldedCell i j := by
  have hone : ∀ i < m.dimension, m.cell i i = m'.cell i i := by
    intro i hi
    have heq := pairSum_cell_eq hdim h (singleton_subset_iff.2 (mem_range.2 hi))
    rwa [pairSum_singleton, pairSum_singleton] at heq
  have htwo : i ≠ j → m.cell i j + m.cell j i = m'.cell i j + m'.cell j i := by
    intro hij
    have heq := pairSum_cell_eq hdim h
      (insert_subset (mem_range.2 hi) (singleton_subset_iff.2 (mem_range.2 hj)))
    rw [pairSum_pair _ hij, pairSum_pair _ hij, hone i hi, hone j hj] at heq
    exact add_left_cancel heq
  unfold foldedCell
  split
  · exact htwo (Nat.ne_of_lt ‹_›)
  · split
    · subst j
      exact hone i hi
    · rfl

/-- Matrices with the same energies fold to the same matrix. -/
theorem toUpperTriangular_eq_of_energy (hdim : m.dimension = m'.dimension)
    (h : ∀ bits, bits.length = m.dimension → m.energy bits = m'.energy bits) :
    m.toUpperTriangular = m'.toUpperTriangular := by
  refine ext_get? hdim rfl fun i j => ?_
  unfold toUpperTriangular
  rw [get?_ofFn, get?_ofFn, ← hdim]
  by_cases hij : i < m.dimension ∧ j < m.dimension
  · rw [if_pos hij, if_pos hij, foldedCell_eq_of_energy hdim h hij.1 hij.2]
  · rw [if_neg hij, if_neg hij]

/-- Every cell below the diagonal is zero. -/
def IsUpper (m : Matrix Rat) : Prop := ∀ i j, j < i → m.cell i j = 0

/-- There is nothing to fold in a matrix that is upper triangular. -/
theorem IsUpper.toUpperTriangular_eq_self (h : m.IsUpper) (ho : m.order = .rowMajor) :
    m.toUpperTriangular = m := by
  have hfolded : ∀ i j, m.foldedCell i j = m.cell i j := by
    intro i j
    unfold foldedCell
    rcases Nat.lt_trichotomy i j with hlt | rfl | hgt
    · rw [if_pos hlt, h j i hlt, add_zero]
    · rw [if_neg (Nat.lt_irrefl i), if_pos rfl]
    · rw [if_neg (Nat.lt_asymm hgt), if_neg (Nat.ne_of_gt hgt), h i j hgt]
  refine ext_get? rfl ho.symm fun i j => ?_
  rw [toUpperTriangular, get?_ofFn, hfolded, get?_eq_cell]
  rfl

/-- Upper triangular matrices with the same energies are the same. -/
theorem IsUpper.eq_of_energy (hm : m.IsUpper) (hm' : m'.IsUpper) (ho : m.order = .rowMajor)
    (ho' : m'.order = .rowMajor) (hdim : m.dimension = m'.dimension)
    (h : ∀ bits, bits.length = m.dimension → m.energy bits = m'.energy bits) : m = m' := by
  rw [← hm.toUpperTriangular_eq_self ho, toUpperTriangular_eq_of_energy hdim h,
    hm'.toUpperTriangular_eq_self ho']

end Matrix

end GraphQubo
