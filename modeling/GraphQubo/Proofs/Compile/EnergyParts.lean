import GraphQubo.Proofs.Compile.Doubling
import GraphQubo.Proofs.Compile.Energy
import GraphQubo.Proofs.Matrix.Folding

/-!
# GraphQubo.Proofs.Compile.EnergyParts

The energy of an assignment, node by node and pair by pair.

In exact arithmetic an energy is a sum over all pairs of variables.  The pairs of one node
with itself bring the values of its variables and the couplings of two positions; the pairs
of two nodes bring the couplings at one position and those of the steps between positions.

* `Layout.sum_meaning_eq` — the sum over all pairs of variables, sorted this way;
* `exists_upperTriangular` — without flags a matrix is upper triangular, with these energies.
-/

namespace GraphQubo

open Finset

/-! ## Sums over numbers and steps -/

/-- A sum over all variables, node after node. -/
theorem sum_range_mul (n P : Nat) (f : Nat → Rat) :
    ∑ i ∈ range (n * P), f i = ∑ v ∈ range n, ∑ q ∈ range P, f (Variable.number ⟨v, q⟩ P) := by
  induction n with
  | zero => simp
  | succ n ih => rw [Nat.succ_mul, sum_range_add, ih, sum_range_succ]; rfl

/-- A sum over the pairs of a position and the next one. -/
theorem sum_next (P : Nat) (f : Nat → Rat) :
    ∑ q ∈ range P, ∑ r ∈ range P, (if r = q + 1 then f q else 0) = ∑ q ∈ range (P - 1), f q := by
  have hinner : ∀ q, ∑ r ∈ range P, (if r = q + 1 then f q else 0) =
      if q + 1 < P then f q else 0 := by
    intro q
    rw [sum_ite_eq']
    simp only [mem_range]
  have hset : range (P - 1) = (range P).filter fun q => q + 1 < P := by
    ext q
    simp only [mem_range, mem_filter]
    omega
  simp only [hinner]
  rw [hset, sum_filter]

/-- The last position and the first one are a single pair. -/
theorem sum_last_first (P : Nat) (k : Rat) :
    ∑ q ∈ range P, ∑ r ∈ range P,
      (if q = P - 1 then if r = 0 then if 2 ≤ P then k else 0 else 0 else 0) =
        if 2 ≤ P then k else 0 := by
  by_cases htwo : 2 ≤ P
  · have hlast : P - 1 ∈ range P := mem_range.2 (by omega)
    have hfirst : 0 ∈ range P := mem_range.2 (by omega)
    simp only [htwo, if_true, sum_ite_irrel, sum_ite_eq', sum_const_zero, hlast, hfirst]
  · simp only [htwo, if_false, ite_self, sum_const_zero]

/-! ## One node and two nodes -/

namespace Layout

variable (l : Layout Rat) (c : Constraints Rat) (y : Nat → Nat → Rat)

/-- What a node brings: the values of its variables, and the couplings of its positions. -/
def nodePart (v : Nat) : Rat :=
  ∑ q ∈ range l.positions, l.variableMeaning c v q * y v q +
    ∑ q ∈ range l.positions, ∑ r ∈ range l.positions,
      if q < r then l.nodeMeaning c v q r * (y v q * y v r) else 0

/-- What two nodes bring: their couplings at a position, from a position to the next one, and
from the last position to the first. -/
def pairPart (v w : Nat) : Rat :=
  l.positionMeaning c v w * ∑ q ∈ range l.positions, y v q * y w q +
    l.stepMeaning c v w * ∑ q ∈ range (l.positions - 1), y v q * y w (q + 1) +
    if 2 ≤ l.positions then l.cycleMeaning c v w * (y v (l.positions - 1) * y w 0) else 0

/-- The energy at a point: what all nodes bring, and all pairs of different nodes. -/
def energyAt : Rat :=
  ∑ v ∈ range l.graph.nodeCount, l.nodePart c y v +
    ∑ v ∈ range l.graph.nodeCount, ∑ w ∈ range l.graph.nodeCount,
      if v ≠ w then l.pairPart c y v w else 0

variable {y}

/-- The cells of one node come to its part of the energy. -/
theorem sum_meaning_self (hy : ∀ v q, y v q * y v q = y v q) (v : Nat) :
    ∑ q ∈ range l.positions, ∑ r ∈ range l.positions,
      y v q * (l.meaning c v q v r * y v r) = l.nodePart c y v := by
  have hterm : ∀ q r, y v q * (l.meaning c v q v r * y v r) =
      (if q = r then l.variableMeaning c v q * y v q else 0) +
        if q < r then l.nodeMeaning c v q r * (y v q * y v r) else 0 := by
    intro q r
    unfold meaning
    rw [if_pos rfl]
    by_cases hqr : q = r
    · subst hqr
      rw [if_pos rfl, if_pos rfl, if_neg (Nat.lt_irrefl q), mul_left_comm, hy, add_zero]
    · rw [if_neg hqr, if_neg hqr, zero_add]
      split <;> ring
  simp only [hterm, sum_add_distrib, nodePart, sum_ite_eq, mem_range]
  refine congrArg (· + _) (sum_congr rfl fun q hq => ?_)
  rw [if_pos (mem_range.1 hq)]

/-- Of two nodes, positions are coupled where they are the same, where the second one is the
next, or where it is the first and the other the last. -/
theorem mul_meaning_pair {v w : Nat} (hvw : v ≠ w) (q r : Nat) :
    y v q * (l.meaning c v q w r * y w r) =
      (if q = r then l.positionMeaning c v w * (y v q * y w q) else 0) +
        (if r = q + 1 then l.stepMeaning c v w * (y v q * y w (q + 1)) else 0) +
        if q = l.positions - 1 then
          if r = 0 then
            if 2 ≤ l.positions then
              l.cycleMeaning c v w * (y v (l.positions - 1) * y w 0)
            else 0
          else 0
        else 0 := by
  unfold meaning
  simp only [hvw, if_false, ← ite_and]
  by_cases hqr : q = r
  · have hnext : ¬r = q + 1 := by omega
    have hwraps : ¬(q = l.positions - 1 ∧ r = 0 ∧ 2 ≤ l.positions) := by omega
    subst hqr
    simp only [hnext, hwraps, if_true, if_false]
    ring
  · by_cases hnext : r = q + 1
    · have hwraps : ¬(q = l.positions - 1 ∧ r = 0 ∧ 2 ≤ l.positions) := by omega
      subst hnext
      simp only [hqr, hwraps, if_true, if_false]
      ring
    · simp only [hqr, hnext, if_false]
      split
      · rename_i hwraps
        rw [hwraps.1, hwraps.2.1]
        ring
      · ring

/-- The cells of two nodes come to their part. -/
theorem sum_meaning_pair {v w : Nat} (hvw : v ≠ w) :
    ∑ q ∈ range l.positions, ∑ r ∈ range l.positions,
      y v q * (l.meaning c v q w r * y w r) = l.pairPart c y v w := by
  simp only [l.mul_meaning_pair c hvw, sum_add_distrib, sum_next, sum_last_first, pairPart, mul_sum,
    sum_ite_eq, mem_range]
  refine congrArg (· + _ + _) (sum_congr rfl fun q hq => ?_)
  rw [if_pos (mem_range.1 hq)]

/-- The sum over all pairs of variables, node by node and pair by pair. -/
theorem sum_meaning_eq (hy : ∀ v q, y v q * y v q = y v q) :
    ∑ v ∈ range l.graph.nodeCount, ∑ q ∈ range l.positions,
      ∑ w ∈ range l.graph.nodeCount, ∑ r ∈ range l.positions,
        y v q * (l.meaning c v q w r * y w r) = l.energyAt c y := by
  have hcouple : ∀ v w, ∑ q ∈ range l.positions, ∑ r ∈ range l.positions,
      y v q * (l.meaning c v q w r * y w r) =
        (if v = w then l.nodePart c y v else 0) + if v ≠ w then l.pairPart c y v w else 0 := by
    intro v w
    by_cases hvw : v = w
    · subst hvw
      rw [l.sum_meaning_self c hy, if_pos rfl, if_neg (not_not_intro rfl), add_zero]
    · rw [l.sum_meaning_pair c hvw, if_neg hvw, if_pos hvw, zero_add]
  rw [energyAt, ← sum_add_distrib]
  refine sum_congr rfl fun v hv => ?_
  rw [sum_comm]
  simp only [hcouple, sum_add_distrib, sum_ite_eq, hv, if_true]

end Layout

/-! ## Matrices without flags -/

/-- Where no pair is written both ways, what compiles is an upper triangular matrix, with
the energies of its parts. -/
theorem exists_upperTriangular {l : Layout Rat} {c : Constraints Rat} {p : Plan Rat}
    (h : l.plan c = .ok p) (hedges : c.doubleCountEdges = false)
    (hcycles : c.doubleCountCycles = false) :
    ∃ m, l.generate c = .ok m ∧ m.dimension = l.graph.nodeCount * l.positions ∧
      m.order = .rowMajor ∧ m.IsUpper ∧
      ∀ bits, bits.length = l.graph.nodeCount * l.positions →
        m.energy bits =
          .ok (l.energyAt c fun v q => bitAt bits (Variable.number ⟨v, q⟩ l.positions)) := by
  obtain ⟨m, hm, hdim, horder, hcell⟩ := exists_generate_meaning h
  have hflags : c.withDoubling false false = c :=
    congrArg₂ c.withDoubling hedges.symm hcycles.symm
  obtain ⟨m', hm', -, hreceived⟩ := exists_generate_withDoubling h false false
  obtain rfl : m' = m := Except.ok.inj (hm'.symm.trans (hflags.symm ▸ hm))
  refine ⟨m', hm, hdim, horder, fun i j hji => ?_, fun bits hlen => ?_⟩
  · by_cases hi : i < l.graph.nodeCount * l.positions
    · rw [Matrix.cell, get?_eq_zero_of_below hreceived hi hji]
      rfl
    · rw [Matrix.cell, Matrix.get?_eq_none_iff.2 fun hr => hi (hdim ▸ hr.1)]
      rfl
  · rw [m'.energy_eq_ok (hlen.trans hdim.symm), hdim,
      ← l.sum_meaning_eq c fun v q => bitAt_mul_self bits _]
    simp only [sum_range_mul]
    refine congrArg Except.ok (sum_congr rfl fun v hv => sum_congr rfl fun q hq =>
      sum_congr rfl fun w hw => sum_congr rfl fun r hr => ?_)
    rw [hcell v w q r (mem_range.1 hv) (mem_range.1 hw) (mem_range.1 hq) (mem_range.1 hr)]

end GraphQubo
