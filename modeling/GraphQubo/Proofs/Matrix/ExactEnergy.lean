import Mathlib.Algebra.BigOperators.Group.Finset.Basic
import Mathlib.Algebra.BigOperators.Ring.Finset
import Mathlib.Algebra.Ring.Rat
import Mathlib.Tactic.Ring
import GraphQubo.Matrix.Energy

/-!
# GraphQubo.Proofs.Matrix.ExactEnergy

The energy of an assignment in exact arithmetic.

Eight lanes, the lane total and the last few elements are only an order of summation.
Over the rationals the order does not count, so a dot product is the sum of the products
and the energy of an assignment is the double sum over all cells.

* `consecutiveDot_eq`, `dotOnto_eq` — both ways to form a dot product;
* `energy_eq_ok` — the energy as a sum over the cells whose two bits are set.
-/

namespace GraphQubo

/-! ## Dot products -/

/-- The sum of the products of two vectors, element by element. -/
def dotSum (as bs : List Rat) : Rat := (List.zipWith (· * ·) as bs).sum

theorem dotSum_cons (a b : Rat) (as bs : List Rat) :
    dotSum (a :: as) (b :: bs) = a * b + dotSum as bs := by
  simp [dotSum]

/-- A running dot product is what it started with and the dot product. -/
theorem dotOnto_eq (sum : Rat) (as bs : List Rat) : dotOnto sum as bs = sum + dotSum as bs := by
  induction as generalizing sum bs with
  | nil => simp [dotOnto, dotSum]
  | cons a as ih =>
    cases bs with
    | nil => simp [dotOnto, dotSum]
    | cons b bs =>
      rw [dotOnto, ih, dotSum_cons]
      ring

/-- Without rounding the order in which lanes are summed does not count. -/
theorem Lanes.total_eq (p : Lanes Rat) :
    p.total = p.l0 + p.l1 + p.l2 + p.l3 + p.l4 + p.l5 + p.l6 + p.l7 := by
  rw [Lanes.total]
  ring

/-- The lanes take eight products at a time and lose none. -/
theorem Lanes.dot_eq (p : Lanes Rat) (as bs : List Rat) :
    p.dot as bs = p.total + dotSum as bs := by
  fun_induction Lanes.dot p as bs with
  | case1 p a0 a1 a2 a3 a4 a5 a6 a7 as b0 b1 b2 b3 b4 b5 b6 b7 bs ih =>
    rw [ih]
    simp only [dotSum_cons, Lanes.total_eq]
    ring
  | case2 p as bs => rw [dotOnto_eq]

/-- Eight lanes side by side come to the plain dot product. -/
theorem consecutiveDot_eq (as bs : List Rat) : consecutiveDot as bs = dotSum as bs := by
  rw [consecutiveDot, Lanes.dot_eq, Lanes.total_eq]
  simp [Lanes.zero]

/-- The products of two vectors that are given by functions of the index. -/
theorem dotSum_map_range (n : Nat) (f g : Nat → Rat) :
    dotSum ((List.range n).map f) ((List.range n).map g) = ∑ i ∈ Finset.range n, f i * g i := by
  rw [dotSum, List.zipWith_map, List.zipWith_self]
  rfl

/-! ## Energies -/

/-- The coefficient of the bit at an index; zero past the end. -/
def bitAt (bits : List Bool) (i : Nat) : Rat := indicator (bits.getD i false)

/-- The bit of an assignment as zero or one. -/
theorem bitAt_eq (bits : List Bool) (i : Nat) :
    bitAt bits i = if bits[i]? = some true then 1 else 0 := by
  unfold bitAt
  rw [List.getD_eq_getElem?_getD]
  cases hbit : bits[i]? with
  | none => simp; rfl
  | some b => cases b <;> simp <;> rfl

/-- A bit is its own square. -/
theorem bitAt_mul_self (bits : List Bool) (i : Nat) : bitAt bits i * bitAt bits i = bitAt bits i := by
  unfold bitAt indicator
  split
  · exact mul_one _
  · exact mul_zero _

theorem map_indicator (bits : List Bool) :
    bits.map indicator = (List.range bits.length).map (bitAt bits) := by
  refine List.ext_getElem (by simp) fun i hi hi' => ?_
  have hlt : i < bits.length := by simpa using hi
  simp [bitAt, List.getD_eq_getElem?_getD, List.getElem?_eq_getElem hlt]

namespace Matrix

/-- A row is summed to the same value, whether its cells follow each other or not. -/
theorem rowDot_eq (m : Matrix Rat) (x : List Rat) (i : Nat) :
    m.rowDot x i = dotSum (m.row i) x := by
  unfold rowDot
  split
  · rw [consecutiveDot_eq]
  · rw [dotOnto_eq, zero_add]

/-- The energy is the sum of the cells whose two bits are set. -/
theorem energy_eq_ok (m : Matrix Rat) {bits : List Bool} (h : bits.length = m.dimension) :
    m.energy bits = .ok (∑ i ∈ Finset.range m.dimension, ∑ j ∈ Finset.range m.dimension,
      bitAt bits i * (m.cell i j * bitAt bits j)) := by
  have hrow : ∀ i, m.rowDot (bits.map indicator) i =
      ∑ j ∈ Finset.range m.dimension, m.cell i j * bitAt bits j := by
    intro i
    rw [rowDot_eq, row, map_indicator, h, dotSum_map_range]
  have hsum : consecutiveDot (bits.map indicator)
        ((List.range m.dimension).map (m.rowDot (bits.map indicator))) =
      ∑ i ∈ Finset.range m.dimension, ∑ j ∈ Finset.range m.dimension,
        bitAt bits i * (m.cell i j * bitAt bits j) := by
    rw [consecutiveDot_eq, funext hrow, map_indicator, h, dotSum_map_range]
    simp only [Finset.mul_sum]
  rw [energy, if_pos h]
  exact congrArg Except.ok hsum

/-- An energy is asked for one bit per row, and of no other list of bits. -/
theorem length_of_energy_eq_ok {m : Matrix Rat} {bits : List Bool} {e : Rat}
    (h : m.energy bits = .ok e) : bits.length = m.dimension := by
  unfold energy at h
  split at h
  · assumption
  · cases h

end Matrix

end GraphQubo
