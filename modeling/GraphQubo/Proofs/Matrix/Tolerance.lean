import Mathlib.Algebra.Order.BigOperators.Group.Finset
import GraphQubo.Equivalence
import GraphQubo.Proofs.Matrix.CanonicalForm

/-!
# GraphQubo.Proofs.Matrix.Tolerance

How far the energies of equivalent matrices are apart.

Two matrices count as equivalent when each folded cell of the compiled one lies within the tolerance
around the reference.  The tolerance is said of single cells.  In exact arithmetic it bounds the
energies: an assignment pays for the pairs of rows that it selects, so two energies differ by no
more than the tolerances of these pairs together.  Equal energies leave no folded cell to differ.

* `isClose_iff` — closeness, cell by cell;
* `mismatch?_eq_none_iff` — equivalence, folded cell by folded cell;
* `abs_energy_sub_le` — one tolerance for each selected pair;
* `equivalence_bounds_energy` — equivalence and energies, both ways.
-/

namespace GraphQubo

open Finset

/-- The magnitude of an exact number. -/
theorem magnitude_eq_abs (x : Rat) : Coefficient.magnitude x = |x| := by
  unfold Coefficient.magnitude Coefficient.atMost
  change (if decide (x ≤ 0) = true then 0 - x else x) = |x|
  rcases le_or_gt x 0 with h | h
  · rw [if_pos (decide_eq_true h), zero_sub, abs_of_nonpos h]
  · rw [if_neg (by simpa using h), abs_of_pos h]

/-- How far from a cell of the reference the compiled one may lie. -/
def tolerance (x : Rat) : Rat := 1e-8 + 1e-5 * |x|

theorem tolerance_pos (x : Rat) : 0 < tolerance x := by
  unfold tolerance
  positivity

/-- Two values are close if they differ by the tolerance at most. -/
theorem close_iff {x y : Rat} : close x y = true ↔ |x - y| ≤ tolerance y := by
  unfold close
  rw [magnitude_eq_abs, magnitude_eq_abs]
  exact decide_eq_true_iff

namespace Matrix

variable {m n reference compiled : Matrix Rat}

/-- Matrices are close if they have one dimension and every cell of the first lies within the
tolerance around that of the second. -/
theorem isClose_iff : m.isClose n = true ↔
    m.dimension = n.dimension ∧
      ∀ i j, m.InRange i j → |m.cell i j - n.cell i j| ≤ tolerance (n.cell i j) := by
  rw [isClose, Bool.and_eq_true, beq_iff_eq, List.all_eq_true, forall_mem_paired]
  simp only [close_iff]

/-- A matrix is close to itself. -/
theorem isClose_self (m : Matrix Rat) : m.isClose m = true :=
  isClose_iff.2 ⟨rfl, fun i j _ => by simpa using (tolerance_pos (m.cell i j)).le⟩

/-- Equivalent matrices have one dimension, and the folded cells of the compiled one lie within the
tolerance around those of the reference. -/
theorem mismatch?_eq_none_iff : mismatch? reference compiled = none ↔
    compiled.dimension = reference.dimension ∧ ∀ i j, compiled.InRange i j →
      |compiled.toUpperTriangular.cell i j - reference.toUpperTriangular.cell i j| ≤
        tolerance (reference.toUpperTriangular.cell i j) := by
  have hclose : mismatch? reference compiled = none ↔
      compiled.toUpperTriangular.isClose reference.toUpperTriangular = true := by
    simp only [mismatch?]
    split
    case isTrue h => exact iff_of_true rfl h
    case isFalse h => exact iff_of_false (Option.some_ne_none _) h
  rw [hclose, isClose_iff]
  rfl

/-- The tolerances of the pairs of rows that an assignment selects, each pair in one order and each
row also with itself. -/
def slack (reference : Matrix Rat) (bits : List Bool) : Rat :=
  ∑ i ∈ range reference.dimension, ∑ j ∈ range reference.dimension,
    if i ≤ j ∧ bits[i]? = some true ∧ bits[j]? = some true then
      tolerance (reference.toUpperTriangular.cell i j) else 0

/-- What two folded cells bring to the energies differs by a tolerance where both bits are set, and
not at all elsewhere. -/
theorem abs_sub_le_tolerance (bits : List Bool) {i j : Nat}
    (h : |n.toUpperTriangular.cell i j - m.toUpperTriangular.cell i j| ≤
      tolerance (m.toUpperTriangular.cell i j)) :
    |bitAt bits i * (m.toUpperTriangular.cell i j * bitAt bits j) -
        bitAt bits i * (n.toUpperTriangular.cell i j * bitAt bits j)| ≤
      if i ≤ j ∧ bits[i]? = some true ∧ bits[j]? = some true then
        tolerance (m.toUpperTriangular.cell i j) else 0 := by
  rcases Nat.lt_or_ge j i with hji | hij
  · rw [m.isUpper_toUpperTriangular i j hji, n.isUpper_toUpperTriangular i j hji,
      if_neg fun hsel => Nat.not_le.2 hji hsel.1]
    simp
  · by_cases hsel : bits[i]? = some true ∧ bits[j]? = some true
    · rw [if_pos ⟨hij, hsel⟩, bitAt_eq, bitAt_eq, if_pos hsel.1, if_pos hsel.2, one_mul, one_mul,
        mul_one, mul_one, abs_sub_comm]
      exact h
    · rw [if_neg fun hall => hsel hall.2, bitAt_eq, bitAt_eq]
      rcases not_and_or.1 hsel with hi | hj
      · simp [hi]
      · simp [hj]

/-- The energies of equivalent matrices differ by at most a tolerance for each selected pair. -/
theorem abs_energy_sub_le (h : mismatch? reference compiled = none) {bits : List Bool}
    (hlen : bits.length = reference.dimension) :
    ∃ e e', reference.energy bits = .ok e ∧ compiled.energy bits = .ok e' ∧
      |e - e'| ≤ reference.slack bits := by
  obtain ⟨hdim, hcells⟩ := mismatch?_eq_none_iff.1 h
  have henergy := reference.toUpperTriangular.energy_eq_ok hlen
  have henergy' := compiled.toUpperTriangular.energy_eq_ok (hlen.trans hdim.symm)
  rw [energy_toUpperTriangular] at henergy henergy'
  refine ⟨_, _, henergy, henergy', ?_⟩
  change |∑ i ∈ range reference.dimension, ∑ j ∈ range reference.dimension, _ -
    ∑ i ∈ range compiled.dimension, ∑ j ∈ range compiled.dimension, _| ≤ _
  rw [hdim, ← sum_sub_distrib]
  refine (abs_sum_le_sum_abs _ _).trans (sum_le_sum fun i hi => ?_)
  rw [← sum_sub_distrib]
  refine (abs_sum_le_sum_abs _ _).trans (sum_le_sum fun j hj => ?_)
  have hrange : compiled.InRange i j := by
    rw [InRange, hdim]
    exact ⟨mem_range.1 hi, mem_range.1 hj⟩
  exact abs_sub_le_tolerance bits (hcells i j hrange)

end Matrix

/-- Matrices of one dimension with the same energies are equivalent, however either splits its
coefficients between the triangles.  Equivalent matrices have one dimension, and for every
assignment their energies differ by at most `1e-8` plus `1e-5` of the magnitude of the folded
reference cell, summed over the selected pairs. -/
theorem equivalence_bounds_energy (reference compiled : Matrix Rat) :
    (reference.dimension = compiled.dimension →
      (∀ bits, bits.length = reference.dimension →
        reference.energy bits = compiled.energy bits) →
      mismatch? reference compiled = none) ∧
    (mismatch? reference compiled = none →
      reference.dimension = compiled.dimension ∧
      ∀ bits, bits.length = reference.dimension →
        ∃ e e', reference.energy bits = .ok e ∧ compiled.energy bits = .ok e' ∧
          |e - e'| ≤ reference.slack bits) := by
  refine ⟨fun hdim henergy => ?_, fun h => ⟨?_, fun bits => Matrix.abs_energy_sub_le h⟩⟩
  · rw [mismatch?, Matrix.toUpperTriangular_eq_of_energy hdim henergy, if_pos (Matrix.isClose_self _)]
  · exact (Matrix.mismatch?_eq_none_iff.1 h).1.symm

/-- A coupling of four may lie in one triangle or be split between both, and be a millionth off:
the energies of both bits then differ, but by no more than three tolerances. -/
theorem equivalence_bounds_energy_coupledPair :
    mismatch? (Matrix.coupledPair 4 0) (Matrix.coupledPair 1 3) = none ∧
      mismatch? (Matrix.coupledPair 4 0) (Matrix.coupledPair 1 (3 + 1e-6)) = none ∧
      ∃ e e', (Matrix.coupledPair 4 0).energy [true, true] = .ok e ∧
        (Matrix.coupledPair 1 (3 + 1e-6)).energy [true, true] = .ok e' ∧ e ≠ e' ∧
        |e - e'| ≤ 3 * 1e-8 + 1e-5 * 6 := by
  have hfold : (Matrix.coupledPair 4 0).toUpperTriangular =
      (Matrix.coupledPair 1 3).toUpperTriangular := by decide +kernel
  have hsame := (equivalence_bounds_energy (Matrix.coupledPair 4 0) (Matrix.coupledPair 1 3)).1 rfl
    fun bits _ => by
      rw [← Matrix.energy_toUpperTriangular, hfold, Matrix.energy_toUpperTriangular]
  have hpasses : mismatch? (Matrix.coupledPair 4 0) (Matrix.coupledPair 1 (3 + 1e-6)) = none :=
    Option.isNone_iff_eq_none.1 (by decide +kernel)
  obtain ⟨-, hbound⟩ := (equivalence_bounds_energy _ _).2 hpasses
  obtain ⟨e, e', he, he', hle⟩ := hbound [true, true] rfl
  have hslack : (Matrix.coupledPair 4 0).slack [true, true] = 3 * 1e-8 + 1e-5 * 6 := by
    decide +kernel
  refine ⟨hsame, hpasses, e, e', he, he', ?_, hslack ▸ hle⟩
  rintro rfl
  exact absurd (he.trans he'.symm) (by decide +kernel)

end GraphQubo
